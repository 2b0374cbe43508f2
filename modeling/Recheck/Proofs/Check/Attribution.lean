import Recheck.Proofs.Check.Depth
import Recheck.Proofs.Check.RuleCosts
import Recheck.Proofs.Syntax.Faults

/-!
# Where a diagnostic belongs

The types of declarations are worked out in silence (`silent_answer`), so what the check of a file reports it reports about
the nodes of the file, and each rule has no more reports to give than there is room for in its node (`tally_answer`). The
spots of a tree are all different and lie in its text, so a fault of one number is found once at a place. The exception are
calls: that one has too many arguments and that another one has too few is said under the same number, and the superfluous
argument can be a call itself.
-/

set_option autoImplicit false

namespace Recheck

open Syntax (Spot Role statementsContent Placed lex ruled_lex)
open Check

namespace Check

/-! ## Silence -/

/-- Nothing was found. -/
structure Silent {α : Type} (s : State) (r : α × State) : Prop where
  found : r.2.found = s.found
  quiet : r.2.quiet = s.quiet

namespace Silent

variable {α β : Type} {s : State}

theorem refl (a : α) : Silent s (a, s) := ⟨rfl, rfl⟩

theorem trans {r : α × State} {r' : β × State} (h : Silent s r) (h' : Silent r.2 r') : Silent s r' :=
  ⟨h'.found.trans h.found, h'.quiet.trans h.quiet⟩

theorem find (hs : s.quiet ≠ 0) (change : Findings → Findings) : Silent s ((), s.find change) := by
  rw [State.find_of_quiet hs]
  exact .refl ()

/-- A part of a check is as silent as those who answer. -/
theorem run {ans : (q : Question) → StateM State q.Answer} (h : ∀ q s, s.quiet ≠ 0 → Silent s ((ans q).run s))
    (c : CheckM α) (hs : s.quiet ≠ 0) : Silent s ((c.run ans).run s) := by
  induction c generalizing s with
  | done a => exact .refl a
  | ask q next ih =>
    have first := h q s hs
    exact first.trans (ih _ (first.quiet.symm ▸ hs))

/-- The type of a declaration is worked out in silence, whoever asks for it. -/
theorem remember {ans : (q : Question) → StateM State q.Answer} (h : ∀ q s, s.quiet ≠ 0 → Silent s ((ans q).run s))
    (d : Declaration) (s : State) : Silent s ((remember d ((declarationRule d).run ans)).run s) := by
  rw [remember_run]
  split
  · exact .refl _
  · split
    · exact .refl _
    · have inner := Silent.run h (declarationRule d) (s := s.enter d) (Nat.succ_ne_zero _)
      refine ⟨inner.found, ?_⟩
      change (((declarationRule d).run ans).run (s.enter d)).2.quiet - 1 = s.quiet
      rw [inner.quiet]
      rfl

end Silent

theorem silent_answer (file : Path) (n : Nat) (q : Question) (s : State) (hs : s.quiet ≠ 0) :
    Silent s ((answer file n q).run s) := by
  induction n generalizing q s with
  | zero =>
    cases q with
    | judge | declared | bindings | isQuiet | openBody => exact ⟨rfl, rfl⟩
    | report | use => exact .find hs _
  | succ n ih =>
    cases q with
    | judge j => exact .run ih (rule j) hs
    | declared d => exact .remember ih d s
    | bindings | isQuiet | openBody => exact ⟨rfl, rfl⟩
    | report | use => exact .find hs _

/-- Asking for the type of a declaration finds nothing. -/
theorem silent_declared (file : Path) (n : Nat) (d : Declaration) (s : State) :
    Silent s ((answer file n (.declared d)).run s) := by
  cases n with
  | zero => exact ⟨rfl, rfl⟩
  | succ n => exact .remember (silent_answer file n) d s

/-! ## Tallies -/

/-- The number of reports with this key. -/
def tally (k : Key) (found : Findings) : Nat := (found.reports.map Report.key).count k

theorem tally_report (k : Key) (found : Findings) (fault : Fault) (span : Span) :
    tally k (found.report fault span) = tally k found + k.cost fault span := by
  change ((Report.mk fault span).key :: found.reports.map Report.key).count k = _
  rw [List.count_cons, tally, Key.cost]
  simp only [beq_iff_eq]

theorem Findings.reports_use (found : Findings) (file : Path) (binding : ImportBinding) :
    (found.use file binding).reports = found.reports := by
  unfold use
  split
  · split <;> rfl
  · rfl

section

variable {p : Program} {k : Key} {s : State} {file : Path} {scope : ScopeId} {n : Nat}

/-- A check that is not quiet is answered plausibly. -/
theorem plausible_answer (file : Path) (n : Nat) (q : Question) (hs : s.quiet = 0)
    (himport : (s.known.bindings.lookupValue scope "import").isSome) : q.Plausible scope ((answer file n q).run s).1 := by
  cases q with
  | bindings => cases n <;> exact himport
  | isQuiet =>
    have hquiet : decide (s.quiet ≠ 0) = false := by simp [hs]
    cases n <;> exact hquiet
  | judge j =>
    cases j with
    | expr e site expected =>
      intro herror
      cases n with
      | zero => rfl
      | succ n =>
        change (((exprRule e site expected).run (answer file n)).run s).1 = .any
        rw [exprRule, herror]
        rfl
    | _ => trivial
  | _ => trivial

/-- To this depth no answer reports more than its question costs. -/
def Charges (p : Program) (k : Key) (file : Path) (n : Nat) : Prop :=
  ∀ (q : Question) (h : Nat) (s : State), 0 < h → s.Steady p → q.Proper h s.known.bindings → s.room p + h ≤ n → s.quiet = 0 →
    tally k ((answer file n q).run s).2.found ≤ tally k s.found + q.cost k

theorem tally_run (hp : p.WellRead) (hcharges : Charges p k file n) {α : Type} {P : α → Prop} {Q : Bindings → α → Prop}
    {h m : Nat} (hpos : 0 < h) (c : CheckM α) (hs : s.Steady p) (hc : Asks h Q c s.known.bindings) (hn : s.room p + h ≤ n)
    (hquiet : s.quiet = 0)
    (himport : ∀ b, Later s.known.bindings b → (b.lookupValue scope "import").isSome)
    (hspends : Spends k scope P c m) : tally k ((c.run (answer file n)).run s).2.found ≤ tally k s.found + m := by
  induction c generalizing s m with
  | done a => exact Nat.le_add_right _ _
  | ask q next ih =>
    -- The answer is charged to the question, and what comes behind it to what the question has left.
    have first := (answers hp file n q h s hpos hs hc.1 hn).unwinds
    have hanswer := plausible_answer file n q hquiet (himport _ (.refl hs.valid))
    have hquiet' : ((answer file n q).run s).2.quiet = 0 := by
      rw [first.steady.quiet, first.resolving, ← hs.quiet, hquiet]
    have rest := ih _ first.steady (hc.2 _ _ first.later first.result) (by rwa [State.room_congr first.resolving]) hquiet'
      (fun b hb => himport b (first.later.trans hb)) (hspends.2 _ hanswer)
    have hfirst := hcharges q h s hpos hs hc.1 hn hquiet
    have hcost := hspends.1
    refine Nat.le_trans rest ?_
    omega

theorem tally_answer (hp : p.WellRead) (k : Key) (file : Path) (n : Nat) : Charges p k file n := by
  induction n with
  | zero =>
    intro q h s hpos _ _ hn
    omega
  | succ n ih =>
    intro q h s _ hs hq hn hquiet
    cases q with
    | judge j =>
      -- The rule has as much to give as its node has room for, and the word that imports is found where the node stands.
      obtain ⟨hstands, hheight⟩ := hq
      refine tally_run hp ih j.item.node.height_pos (rule j) hs (fine_rule j hs.valid hstands) (by omega) hquiet ?_ (costs_rule j)
      exact fun b hb => hb.valid.lookup_import (hb.grows.stands _ hstands)
    | declared d =>
      -- Whatever nodes this leads to, in this file or in another one, nothing is said about them.
      rw [(silent_declared file (n + 1) d s).found]
      exact Nat.le_add_right _ _
    | report fault span =>
      change tally k (s.find _).found ≤ _
      rw [State.find_of_loud hquiet]
      exact Nat.le_of_eq (tally_report k s.found fault span)
    | use binding =>
      change tally k (s.find _).found ≤ _
      rw [State.find_of_loud hquiet, tally, Findings.reports_use]
      exact Nat.le_add_right _ _
    | bindings | isQuiet | openBody => exact Nat.le_add_right _ _

/-! ## The check of a file -/

theorem costs_checkUnit (k : Key) (scope : ScopeId) (unit : SourceUnit) :
    Costs k scope (checkUnit unit) (k.share (statementsContent unit.tree.statements).spots) := by
  rw [Syntax.statementsContent_eq, Key.share_foldr]
  exact costs_bindings.bind_free fun _ _ => Spends.forM fun s _ => costs_checkStatement s none

theorem Valid.lookup_import_global {b : Bindings} (hb : Valid b) : (b.lookupValue globalScope "import").isSome := by
  have hgrounded : Grounded b globalScope := by
    have hstands : StandsScope b globalScope := .inl rfl
    refine hb.grounded_of_home hstands ?_ rfl (Bindings.finds_iff.mpr hb.global)
    intro body parent hhome
    exact ScopeId.noConfusion (show ScopeId.main 0 = _ from hhome)
  exact hgrounded.finds _ hgrounded.reach_le

/-- The check of a file has no more reports with a key than there is room for in its tree. -/
theorem tally_checkUnit (hp : p.WellRead) (hs : s.Steady p) {unit : SourceUnit} (hunit : unit ∈ p.units) (hquiet : s.quiet = 0) :
    tally k (((checkUnit unit).run (answer unit.path (depthBound p))).run s).2.found ≤
      tally k s.found + k.share (statementsContent unit.tree.statements).spots :=
  tally_run hp (tally_answer hp k unit.path _) (Nat.zero_lt_of_lt hp.cacheable_lt) _ hs (hs.fine_checkUnit hp hunit) (room_le hp)
    hquiet (fun _ hb => hb.valid.lookup_import_global) (costs_checkUnit k globalScope unit)

end

/-! ## Findings at spots -/

namespace Fault

/-- A call has too few arguments. -/
def TooFew : Fault → Prop
  | argumentCount least most given => given < least ∧ given ≤ most
  | _ => False

/-- A call has too many arguments. -/
def TooMany : Fault → Prop
  | argumentCount _ most given => most < given
  | _ => False

theorem role_argumentCount {least most given : Nat} {role : Role} (h : (argumentCount least most given).role? = some role) :
    most < given ∧ role = .surplus ∨ (given < least ∧ given ≤ most) ∧ role = .value := by
  unfold role? at h
  dsimp only at h
  split at h
  · rename_i hmany
    exact .inl ⟨hmany, (Option.some.inj h).symm⟩
  · rename_i hmost
    split at h
    · rename_i hfew
      exact .inr ⟨⟨hfew, Nat.le_of_not_lt hmost⟩, (Option.some.inj h).symm⟩
    · cases h

/-- The same number is given at places of different roles only where a call has too few arguments, and is too much. -/
theorem role_eq {fault fault' : Fault} {role role' : Role} (hrole : fault.role? = some role) (hrole' : fault'.role? = some role')
    (hcode : fault.code = fault'.code) :
    role = role' ∨ fault.TooFew ∧ fault'.TooMany ∨ fault.TooMany ∧ fault'.TooFew := by
  cases fault with
  | argumentCount least most given =>
    cases fault' with
    | argumentCount least' most' given' =>
      rcases role_argumentCount hrole with ⟨hmany, rfl⟩ | ⟨hfew, rfl⟩ <;>
        rcases role_argumentCount hrole' with ⟨hmany', rfl⟩ | ⟨hfew', rfl⟩
      · exact .inl rfl
      · exact .inr (.inr ⟨hmany, hfew'⟩)
      · exact .inr (.inl ⟨hfew, hmany'⟩)
      · exact .inl rfl
    | _ => simp [code] at hcode
  | _ => cases fault' <;> first | exact .inl (Option.some.inj (hrole.symm.trans hrole')) | simp [code] at hcode

theorem code_lt_code (fault : Syntax.Fault) (fault' : Fault) : fault.code < fault'.code := by
  have hsyntax : fault.code < 2000 := by cases fault <;> simp [Syntax.Fault.code]
  have hcheck : 2000 ≤ fault'.code := by cases fault' <;> simp [code]
  exact Nat.lt_of_lt_of_le hsyntax hcheck

theorem code_ne_unused {fault : Fault} {role : Role} (h : fault.role? = some role) (name : String) :
    fault.code ≠ (unused name).code := by
  cases fault with
  | unused => cases h
  | _ => simp [code]

end Fault

/-- Reports that are told apart, each at a spot of its role. -/
structure Spotted (spots : List Spot) (reports : List Report) : Prop where
  nodup : (reports.map Report.key).Nodup
  spot : ∀ r ∈ reports, ∃ role, r.fault.role? = some role ∧ (role, r.span) ∈ spots

theorem Spotted.of_tally {spots : List Spot} {found : Findings} (hspots : spots.Nodup)
    (h : ∀ k, tally k found ≤ k.share spots) : Spotted spots found.reports where
  nodup := List.nodup_iff_count_le_one.mpr fun k => Nat.le_trans (h k) (k.share_le_one hspots)
  spot r hr := by
    have htally : 0 < tally r.key found := List.count_pos_iff.mpr (List.mem_map_of_mem hr)
    obtain ⟨x, hx, hrole⟩ := List.countP_pos_iff.mp (Nat.lt_of_lt_of_le htally (h r.key))
    simp only [decide_eq_true_eq] at hrole
    refine ⟨x.1, hrole.1.symm, ?_⟩
    have hspan : x.2 = r.span := hrole.2
    rwa [← hspan]

end Check

/-! ## Places in a text -/

/-- What has its place between the tokens lies in the text. -/
theorem Syntax.Placed.inside {text : String} {lo hi : Nat} {spots : List Spot} (h : Placed (lex text).tokens lo hi spots)
    {x : Spot} (hx : x ∈ spots) : x.2.Inside 0 text.utf8ByteSize := by
  obtain ⟨hforward, hstop, -⟩ := h.between x hx
  rw [(ruled_lex text).2, Chars.byteLength_toList] at hstop
  exact ⟨Nat.zero_le _, hforward, hstop⟩

theorem Check.importedNames_sublist (s : Syntax.Statement) :
    ((importedNames s).map fun name => (Role.variable, name.span)).Sublist s.importSpots := by
  cases s with
  | importDecl d => exact List.Sublist.refl _
  | importEquals d =>
    change (List.map _ (if d.exported then [] else [d.name])).Sublist _
    split
    · exact List.nil_sublist _
    · exact List.Sublist.refl _
  | _ => exact List.nil_sublist _

/-- The names that a file imports stand in places of their own. -/
theorem SourceUnit.Read.placed_imports {unit : SourceUnit} (h : unit.Read) :
    ∃ lo hi, Placed (lex unit.text).tokens lo hi
      ((unit.tree.statements.flatMap importedNames).map fun name => (.variable, name.span)) := by
  rw [List.map_flatMap]
  exact ⟨_, _, h.row.placed (ruled_lex unit.text).1 fun _ _ s hs => hs.imports.sublist (importedNames_sublist s)⟩

/-! ## Diagnostics of a file -/

namespace Diagnostic

def TooFew (d : Diagnostic) : Prop := ∃ fault : Fault, fault.TooFew ∧ d.code = fault.code ∧ d.message = fault.message

def TooMany (d : Diagnostic) : Prop := ∃ fault : Fault, fault.TooMany ∧ d.code = fault.code ∧ d.message = fault.message

/-- One of them says that a call has too few arguments, the other one that a call has too many. -/
def Opposed (d d' : Diagnostic) : Prop := d.TooFew ∧ d'.TooMany ∨ d.TooMany ∧ d'.TooFew

end Diagnostic

/-- Diagnostics that belong to a file: each names the file and lies in its text, and no two have the same number at the same
place. The exception are arguments of a call that are too many, and are a call that has too few. -/
structure Attributed (unit : SourceUnit) (found : List Diagnostic) : Prop where
  file : ∀ d ∈ found, d.file = some unit.path
  inside : ∀ d ∈ found, d.span.Inside 0 unit.text.utf8ByteSize
  apart : found.Pairwise fun d d' => d.code = d'.code → d.span = d'.span → d.Opposed d'

namespace Attributed

variable {unit : SourceUnit} {found found' : List Diagnostic}

theorem append (h : Attributed unit found) (h' : Attributed unit found')
    (hcode : ∀ d ∈ found, ∀ d' ∈ found', d.code ≠ d'.code) : Attributed unit (found ++ found') where
  file := List.forall_mem_append.mpr ⟨h.file, h'.file⟩
  inside := List.forall_mem_append.mpr ⟨h.inside, h'.inside⟩
  apart := List.pairwise_append.mpr ⟨h.apart, h'.apart, fun d hd d' hd' heq => absurd heq (hcode d hd d' hd')⟩

/-- What the parser has to say. -/
theorem syntaxDiagnostics (hunit : unit.Read) : Attributed unit unit.syntaxDiagnostics := by
  obtain ⟨hapart, hinside⟩ := Syntax.parse_reports unit.text
  rw [Chars.byteLength_toList] at hinside
  have hfound : unit.syntaxDiagnostics = (Syntax.parse unit.text).reports.map (·.toDiagnostic unit.source) :=
    congrArg SourceUnit.syntaxDiagnostics hunit
  rw [hfound]
  refine ⟨List.forall_mem_map.mpr fun r _ => rfl, List.forall_mem_map.mpr hinside, ?_⟩
  exact List.pairwise_map.mpr (hapart.imp fun h hcode hspan => absurd hspan (h hcode))

/-- What is reported at the spots of the tree. -/
theorem spotted (hunit : unit.Read) {reports : List Check.Report}
    (h : Spotted (statementsContent unit.tree.statements).spots reports) :
    Attributed unit (reports.reverse.map (·.toDiagnostic unit.source)) := by
  refine ⟨List.forall_mem_map.mpr fun r _ => rfl, List.forall_mem_map.mpr fun r hr => ?_, ?_⟩
  · obtain ⟨role, -, hspot⟩ := h.spot r (List.mem_reverse.mp hr)
    exact hunit.fits.placed.inside hspot
  · refine List.pairwise_map.mpr (List.pairwise_reverse.mpr ?_)
    have hnodup := List.pairwise_map.mp h.nodup
    refine hnodup.imp_of_mem fun {r r'} hr hr' hkey hcode hspan => ?_
    obtain ⟨role, hrole, -⟩ := h.spot r hr
    obtain ⟨role', hrole', -⟩ := h.spot r' hr'
    -- With the same role they would have the same key.
    rcases Fault.role_eq hrole' hrole hcode with rfl | ⟨hfew, hmany⟩ | ⟨hmany, hfew⟩
    · have hcode : r'.fault.code = r.fault.code := hcode
      have hspan : r'.span = r.span := hspan
      exact absurd (by rw [Report.key, Report.key, hrole, hrole', hcode, hspan]) hkey
    · exact .inl ⟨⟨r'.fault, hfew, rfl, rfl⟩, ⟨r.fault, hmany, rfl, rfl⟩⟩
    · exact .inr ⟨⟨r'.fault, hmany, rfl, rfl⟩, ⟨r.fault, hfew, rfl, rfl⟩⟩

/-- What is said of imports that are not used. -/
theorem unusedImports (hunit : unit.Read) (used : List NodeKey) :
    Attributed unit ((Check.unusedImports unit.path unit.tree.statements used).map (·.toDiagnostic unit.source)) := by
  obtain ⟨lo, hi, hplaced⟩ := hunit.placed_imports
  rw [Check.unusedImports, List.map_map]
  have hunused (keep : Syntax.Ident → Bool) := hplaced.sublist ((List.filter_sublist (p := keep)).map _)
  refine ⟨List.forall_mem_map.mpr fun _ _ => rfl, List.forall_mem_map.mpr fun name hname => ?_, ?_⟩
  · exact (hunused _).inside (List.mem_map_of_mem hname)
  · have hnodup := List.pairwise_map.mp (hunused fun name => !used.contains (importKey unit.path name)).nodup
    refine List.pairwise_map.mpr (hnodup.imp fun hne _ hspan => ?_)
    exact absurd (congrArg (Prod.mk Role.variable) hspan) hne

/-- All of that together. -/
theorem diagnostics (hunit : unit.Read) {found : Findings}
    (h : Spotted (statementsContent unit.tree.statements).spots found.reports) :
    Attributed unit (TypeChecker.diagnostics unit found) := by
  have hunused := unusedImports hunit found.used
  rw [TypeChecker.diagnostics, Findings.ofUnit, List.map_append]
  refine (syntaxDiagnostics hunit).append ((spotted hunit h).append hunused ?_) ?_
  · intro d hd d' hd'
    obtain ⟨r, hr, rfl⟩ := List.mem_map.mp hd
    obtain ⟨r', hr', rfl⟩ := List.mem_map.mp hd'
    obtain ⟨name, -, rfl⟩ := List.mem_map.mp hr'
    obtain ⟨role, hrole, -⟩ := h.spot r (List.mem_reverse.mp hr)
    exact Fault.code_ne_unused hrole name.name
  · intro d hd d' hd'
    have hfound : unit.syntaxDiagnostics = (Syntax.parse unit.text).reports.map (·.toDiagnostic unit.source) :=
      congrArg SourceUnit.syntaxDiagnostics hunit
    rw [hfound] at hd
    rw [← List.map_append] at hd'
    obtain ⟨r, -, rfl⟩ := List.mem_map.mp hd
    obtain ⟨r', -, rfl⟩ := List.mem_map.mp hd'
    exact Nat.ne_of_lt (Fault.code_lt_code r.fault r'.fault)

end Attributed

namespace TypeChecker

/-- What a type checker finds in a file belongs to the file, whatever it was asked about before. -/
theorem attributed_semanticDiagnostics {p : Program} (hp : p.WellRead) (asked : List Path) {path : Path} {unit : SourceUnit}
    (hunit : p.unit? path = some unit) :
    (unit.path == path) = true ∧ Attributed unit (((ofProgram p).after asked).semanticDiagnostics path).1 := by
  obtain ⟨hmem, hpath⟩ := hp.mem_of_unit? hunit
  have hread := hp.read_of_mem hmem
  have hprogram : ((ofProgram p).after asked).program = p := program_after asked
  have hidle := (idle_ofProgram hp).after hp asked
  generalize (ofProgram p).after asked = c at hprogram hidle ⊢
  refine ⟨hpath, ?_⟩
  unfold semanticDiagnostics
  rw [hprogram, hunit]
  dsimp only
  split
  · exact .syntaxDiagnostics hread
  · rw [← hprogram, findings_eq_check, hprogram]
    refine .diagnostics hread (.of_tally hread.fits.placed.nodup fun k => ?_)
    have htally : tally k (c.check unit (depthBound p)).found ≤ _ := tally_checkUnit hp (hprogram ▸ hidle.steady) hmem rfl
    rwa [show tally k (State.start c.known).found = 0 from rfl, Nat.zero_add] at htally

theorem attributed_semanticDiagnostics_listed :
    ∃ unit, (listed.WellRead ∧ listed.unit? ⟨"/m.ts"⟩ = some unit) ∧ (unit.path == ⟨"/m.ts"⟩) = true ∧
      Attributed unit (((ofProgram listed).after [⟨"/l.ts"⟩]).semanticDiagnostics ⟨"/m.ts"⟩).1 := by
  have hp : listed.WellRead := Program.wellRead_ofHost _ _ _
  have hsome : (listed.unit? ⟨"/m.ts"⟩).isSome := by decide +kernel
  obtain ⟨unit, hunit⟩ := Option.isSome_iff_exists.mp hsome
  exact ⟨unit, ⟨hp, hunit⟩, attributed_semanticDiagnostics hp [⟨"/l.ts"⟩] hunit⟩

/-- A call with an argument too many, which is a call with an argument too few. -/
def called : Program :=
  .ofHost [⟨"/a.ts"⟩] .standard (Files.toHost (.ofList [
    (⟨"/a.ts"⟩, "declare function f(): void; declare function g(x: number): number; f(g());")]))

set_option maxRecDepth 100000 in
/-- What is wrong with the two calls is said under one number at one place. -/
theorem calls_share_span : (called.unit? ⟨"/a.ts"⟩).isSome ∧
    ¬ (called.semanticDiagnostics ⟨"/a.ts"⟩).Pairwise fun d d' => d.code = d'.code → d.span ≠ d'.span := by
  have hplaces : (called.semanticDiagnostics ⟨"/a.ts"⟩).map (fun d => (d.code, d.span)) =
      [(2554, ⟨69, 72⟩), (2554, ⟨69, 72⟩)] := by decide +kernel
  refine ⟨by decide +kernel, fun h => ?_⟩
  have hnodup : ((called.semanticDiagnostics ⟨"/a.ts"⟩).map fun d => (d.code, d.span)).Nodup := by
    refine List.pairwise_map.mpr (h.imp fun hne heq => ?_)
    exact hne (congrArg Prod.fst heq) (congrArg Prod.snd heq)
  rw [hplaces] at hnodup
  exact absurd hnodup (by decide)

end TypeChecker

end Recheck

/-!
## Moments of a check

A question that comes up in the check of a file, outside the silent computations, is one of which the file has an account.
What has been found when it is answered is found in the end (`Comes.found`), and what it may report, nobody else reports
(`Comes.tally`): if there is room for one report with a key, and the question takes up that room, the reports with this key
are those of its own answer.
-/

namespace Recheck.Check

open Syntax

theorem answer_report (file : Path) (n : Nat) (fault : Fault) (span : Span) (s : State) :
    (answer file n (.report fault span)).run s = ((), s.find (·.report fault span)) := by
  cases n <;> rfl

/-! ## Findings grow -/

/-- What was found before is still found. -/
structure Findings.Grow (found found' : Findings) : Prop where
  reports : found.reports ⊆ found'.reports
  used : found.used ⊆ found'.used

namespace Findings.Grow

variable {found found' found'' : Findings}

theorem refl (found : Findings) : found.Grow found := ⟨fun _ h => h, fun _ h => h⟩

theorem trans (h : found.Grow found') (h' : found'.Grow found'') : found.Grow found'' :=
  ⟨fun _ hr => h'.reports (h.reports hr), fun _ hk => h'.used (h.used hk)⟩

theorem report (found : Findings) (fault : Fault) (span : Span) : found.Grow (found.report fault span) :=
  ⟨fun _ hr => List.mem_cons_of_mem _ hr, fun _ hk => hk⟩

theorem use (found : Findings) (file : Path) (binding : ImportBinding) : found.Grow (found.use file binding) := by
  unfold Findings.use
  split
  · split
    · exact ⟨fun _ hr => hr, fun _ hk => List.mem_cons_of_mem _ hk⟩
    · exact .refl found
  · exact .refl found

theorem find (s : State) {change : Findings → Findings} (h : ∀ found : Findings, found.Grow (change found)) :
    s.found.Grow (s.find change).found := by
  unfold State.find
  split
  · exact h s.found
  · exact .refl _

theorem run {ans : (q : Question) → StateM State q.Answer} (h : ∀ q (s : State), s.found.Grow ((ans q).run s).2.found)
    {α : Type} (c : CheckM α) (s : State) : s.found.Grow ((c.run ans).run s).2.found := by
  induction c generalizing s with
  | done a => exact .refl _
  | ask q next ih => exact (h q s).trans (ih _ _)

end Findings.Grow

theorem grow_answer (file : Path) (n : Nat) (q : Question) (s : State) : s.found.Grow ((answer file n q).run s).2.found := by
  induction n generalizing q s with
  | zero =>
    cases q with
    | judge | declared | bindings | isQuiet | openBody => exact .refl _
    | report fault span => exact .find s fun found => .report found fault span
    | use binding => exact .find s fun found => .use found file binding
  | succ n ih =>
    cases q with
    | judge j => exact .run ih (rule j) s
    | declared d => exact (silent_declared file (n + 1) d s).found.symm ▸ .refl _
    | bindings | isQuiet | openBody => exact .refl _
    | report fault span => exact .find s fun found => .report found fault span
    | use binding => exact .find s fun found => .use found file binding

theorem grow_run (file : Path) (n : Nat) {α : Type} (c : CheckM α) (s : State) :
    s.found.Grow ((c.run (answer file n)).run s).2.found := .run (grow_answer file n) c s

/-! ## Questions that come up -/

section

variable {file : Path} {n m : Nat} {α : Type} {c : CheckM α} {s s' : State} {q : Question}

/-- What a silent computation comes to, it comes to in silence. -/
theorem Comes.quiet (h : Comes file n c s m q s') (hs : s.quiet ≠ 0) : s'.quiet ≠ 0 := by
  induction h with
  | ask => exact hs
  | @next _ n m q q' next s s' _ ih => exact ih ((silent_answer file n q s hs).quiet ▸ hs)
  | judge _ ih => exact ih hs
  | declared _ _ _ ih => exact ih (Nat.succ_ne_zero _)

/-- What is found outside silent computations by the answer to a question is found in the end. -/
theorem Comes.found (h : Comes file n c s m q s') (hloud : s'.quiet = 0) :
    ((answer file m q).run s').2.found.Grow ((c.run (answer file n)).run s).2.found := by
  induction h with
  | ask n q next s => exact grow_run file n _ _
  | next _ ih => exact ih hloud
  | @judge _ n m j q' next s s' _ ih =>
    have inner : _ = ((answer file (n + 1) (.judge j)).run s).2.found := rfl
    exact (inner ▸ ih hloud).trans (grow_run file (n + 1) _ _)
  | declared _ _ h _ => exact absurd hloud (h.quiet (Nat.succ_ne_zero _))

variable {p : Program} {k : Key} {scope : ScopeId}

theorem Unwinds.loud {Q : Bindings → α → Prop} {r : α × State} (h : Unwinds p s Q r) (hs : s.Steady p) (hquiet : s.quiet = 0) :
    r.2.quiet = 0 := by
  rw [h.steady.quiet, h.resolving, ← hs.quiet, hquiet]

/-- After an answer the check is no more silent than before. -/
theorem loud_answer (hp : p.WellRead) {q : Question} {height : Nat} (hpos : 0 < height) (hs : s.Steady p)
    (hq : q.Proper height s.known.bindings) (hn : s.room p + height ≤ n) (hquiet : s.quiet = 0) :
    ((answer file n q).run s).2.quiet = 0 :=
  (answers hp file n q height s hpos hs hq hn).unwinds.loud hs hquiet

/-- What comes behind the first question has what is left. -/
theorem tally_next (hp : p.WellRead) (file : Path) {q : Question} {next : q.Answer → CheckM α} (hs : s.Steady p) {Q : Bindings → α → Prop}
    {P : α → Prop} {height budget : Nat} (hpos : 0 < height) (hc : Asks height Q (.ask q next) s.known.bindings)
    (hn : s.room p + height ≤ n) (hquiet : s.quiet = 0)
    (himport : ∀ b, Later s.known.bindings b → (b.lookupValue scope "import").isSome)
    (hspends : Spends k scope P (.ask q next) budget) :
    Check.tally k (((CheckM.ask q next).run (answer file n)).run s).2.found + q.cost k ≤
      Check.tally k ((answer file n q).run s).2.found + budget := by
  have first := (answers hp file n q height s hpos hs hc.1 hn).unwinds
  have hanswer := plausible_answer file n q hquiet (himport _ (.refl hs.valid))
  have rest := tally_run hp (tally_answer hp k file n) hpos (next ((answer file n q).run s).1) first.steady
    (hc.2 _ _ first.later first.result) (by rwa [State.room_congr first.resolving]) (loud_answer hp hpos hs hc.1 hn hquiet)
    (fun b hb => himport b (first.later.trans hb)) (hspends.2 _ hanswer)
  have hcost := hspends.1
  change Check.tally k (((next ((answer file n q).run s).1).run (answer file n)).run ((answer file n q).run s).2).2.found + _ ≤ _
  omega

/-- A question takes its room from the room there is: beside the reports of its own answer there is that much less. -/
theorem Comes.tally (h : Comes file n c s m q s') (hp : p.WellRead) (hs : s.Steady p) {Q : Bindings → α → Prop} {P : α → Prop}
    {height budget : Nat} (hpos : 0 < height) (hc : Asks height Q c s.known.bindings) (hn : s.room p + height ≤ n)
    (hquiet : s.quiet = 0) (himport : ∀ b, Later s.known.bindings b → (b.lookupValue scope "import").isSome)
    (hspends : Spends k scope P c budget) (hloud : s'.quiet = 0) :
    Check.tally k ((c.run (answer file n)).run s).2.found + (q.cost k + Check.tally k s'.found) ≤
      Check.tally k s.found + budget + Check.tally k ((answer file m q).run s').2.found := by
  induction h generalizing height budget scope with
  | ask n q next s =>
    have hrest := tally_next hp file hs hpos hc hn hquiet himport hspends
    omega
  | @next _ n m q q' next s s' _ ih =>
    have first := (answers hp file n q height s hpos hs hc.1 hn).unwinds
    have hanswer := plausible_answer file n q hquiet (himport _ (.refl hs.valid))
    have hfirst := tally_answer hp k file n q height s hpos hs hc.1 hn hquiet
    have rest := ih first.steady hpos (hc.2 _ _ first.later first.result) (by rwa [State.room_congr first.resolving])
      (loud_answer hp hpos hs hc.1 hn hquiet) (fun b hb => himport b (first.later.trans hb)) (hspends.2 _ hanswer) hloud
    have hcost := hspends.1
    change Check.tally k (((next ((answer file n q).run s).1).run (answer file n)).run ((answer file n q).run s).2).2.found + _ ≤ _
    omega
  | @judge _ n m j q' next s s' _ ih =>
    obtain ⟨hstands, hheight⟩ := hc.1
    have inner := ih hs j.item.node.height_pos (fine_rule j hs.valid hstands) (by omega) hquiet
      (fun b hb => hb.valid.lookup_import (hb.grows.stands _ hstands)) (costs_rule j) hloud
    have hrest := tally_next hp file hs hpos hc hn hquiet himport hspends
    change _ + j.cost k ≤ Check.tally k (((rule j).run (answer file n)).run s).2.found + _ at hrest
    omega
  | declared _ _ h _ => exact absurd hloud (h.quiet (Nat.succ_ne_zero _))

end

end Recheck.Check
