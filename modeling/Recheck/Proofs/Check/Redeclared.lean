import Recheck.Proofs.Check.Arity
import Recheck.Proofs.Check.Deeds
import Recheck.Proofs.Check.Unused
import Recheck.Proofs.Types.Meaning
import Recheck.Proofs.Types.Signatures

/-!
# Variables that are declared again

The bindings of a type checker have come about by binding the files and then, on the first look, some bodies. What was done
with names on the way is their history, and their tables follow it (`lasting_recorded`). So a variable is reported as declared
again if, in all that was done with its name until it is checked, it met a variable that held the name and clashes with it, or
was met by one while it held the name itself (`TypeChecker.redeclared_iff`). A variable that finds its name taken, by one that
it does not clash with, is not compared with those that come later.
-/

set_option autoImplicit false

namespace Recheck

open Syntax Check

namespace Check

/-! ## Histories -/

namespace Bindings

/-- All that was done with names until some bindings came about: the files were bound, and then some bodies. -/
inductive History (p : Program) : Bindings → List Deed → Prop
  | files : History p (ofProgram p) (programDeeds p)
  | body {b : Bindings} {log : List Deed} {body : Body} {parent : ScopeId} {importer : Path} : History p b log →
      .inner body parent 0 ∉ b.opened → History p (b.openBody body parent importer) (log ++ bodyDeeds body parent importer b)

/-- All that was done with the names of the table that holds a scope. With a plain body it is the body alone that matters. -/
def Traced (p : Program) (b : Bindings) (scope : ScopeId) (log : List Deed) : Prop :=
  match scope with
  | .main _ => b.History p log
  | .inner body parent _ =>
    if body.isPlain then log = builtinDeeds ++ bodyDeeds body parent body.key.file (start default) else b.History p log

namespace History

variable {p : Program} {b : Bindings} {log : List Deed} (h : b.History p log)
include h

theorem programDeeds_subset : programDeeds p ⊆ log := by
  induction h with
  | files => exact List.Subset.refl _
  | body _ _ ih => exact fun deed hdeed => List.mem_append_left _ (ih hdeed)

/-- Files keep their scopes. -/
theorem fileScopes : b.fileScopes = (ofProgram p).fileScopes := by
  induction h with
  | files => rfl
  | @body b _ body parent importer _ hopened ih =>
    unfold openBody
    dsimp only
    rw [if_neg fun hcontains => hopened (List.contains_iff_mem.mp hcontains)]
    exact (Fills.any_bindInner body parent importer).files.trans ih

end History

/-! ### The variables of files -/

section

variable {decl : Declarator} {d : VariableStatement}

theorem mem_deedsEach (p : Place) {statements : List Statement} (hd : .variableDecl d ∈ statements) (hdecl : decl ∈ d.declarators)
    (b : Bindings) : .variable decl d.kind p.site ∈ deedsEach p statements b := by
  induction statements generalizing b with
  | nil => exact nomatch hd
  | cons s rest ih =>
    rcases List.mem_cons.mp hd with rfl | hd
    · exact List.mem_append_left _ (List.mem_map_of_mem (f := (Deed.variable · d.kind p.site)) hdecl)
    · exact List.mem_append_right _ (ih hd _)

/-- What a file declares outside of functions and blocks is done when the files are bound. -/
theorem mem_programDeeds {p : Program} {unit : SourceUnit} (hunit : unit ∈ p.units) (hd : .variableDecl d ∈ unit.tree.statements)
    (hdecl : decl ∈ d.declarators) : .variable decl d.kind ((ofProgram p).fileSite unit) ∈ programDeeds p := by
  have files (units : List SourceUnit) (hunit : unit ∈ units) (b : Bindings) :
      .variable decl d.kind (b.fileSite unit) ∈ fileDeeds units b := by
    induction units generalizing b with
    | nil => exact nomatch hunit
    | cons other units ih =>
      rcases List.mem_cons.mp hunit with rfl | hunit
      · exact List.mem_append_left _ (mem_deedsEach (b.filePlace unit) hd hdecl b)
      · have hfiles : (b.bindFile other).fileSite unit = b.fileSite unit := by
          have hfills : Fills .any b (b.bindFile other) := Fills.any_bindBody _ _ _
          rw [fileSite, fileSite, hfills.files]
        exact List.mem_append_right _ (hfiles ▸ ih hunit _)
  have hsame : (ofProgram p).fileSite unit = (p.units.foldl openFile (start p)).fileSite unit := by
    have hfills : Fills .any (p.units.foldl openFile (start p)) (ofProgram p) := Fills.any_bindFiles p.units _
    rw [fileSite, fileSite, hfills.files]
  exact List.mem_append_right _ (hsame ▸ files p.units hunit _)

end

end Bindings

/-- Bindings with a history that their tables follow. -/
def Recorded (p : Program) (b : Bindings) : Prop := ∃ log, b.History p log ∧ Follows log b

variable {p : Program}

theorem recorded_ofProgram (p : Program) : Recorded p (.ofProgram p) := ⟨_, .files, .ofProgram p⟩

/-- Opening a body is written down in the history. -/
theorem lasting_recorded (p : Program) (file : Path) : Lasting p file (Recorded p) := by
  rintro b x body hvalid - ⟨log, hhistory, hfollows⟩ - - -
  by_cases hopened : .inner body x.site.scope 0 ∈ b.opened
  · -- A body that is open is not bound again.
    have hsame : b.openBody body x.site.scope file = b := by
      unfold Bindings.openBody
      exact if_pos (List.contains_iff_mem.mpr hopened)
    rw [hsame]
    exact ⟨log, hhistory, hfollows⟩
  · have hbound := hfollows.bindInner (hvalid.lacks hopened) hvalid.global file
    exact ⟨_, hhistory.body hopened, hbound.still (.of_tables fun _ => Bindings.tableOf_openBody file hopened)⟩

/-- The variables that are noted as clashing in the table of a scope are those that clash in its history. -/
theorem Recorded.isRedeclared_iff {b : Bindings} (h : Recorded p b) (scope : ScopeId) :
    ∃ log, b.Traced p scope log ∧ ∀ key, b.isRedeclared scope key = true ↔ Redeclared log scope key := by
  obtain ⟨log, hhistory, hfollows⟩ := h
  have noted {source : Bindings} (hsource : b.source scope = source) {log : List Deed} (hlog : Follows log source) (key : NodeKey) :
      b.isRedeclared scope key = true ↔ Redeclared log scope key := by
    rw [Bindings.isRedeclared, Bindings.tableAt_eq, hsource, List.contains_iff_mem]
    exact hlog.redeclared scope key
  cases scope with
  | main n => exact ⟨log, hhistory, noted rfl hfollows⟩
  | inner body parent n =>
    by_cases hplain : body.isPlain = true
    · refine ⟨_, ?_, noted (if_pos hplain) (.ofBody body parent)⟩
      rw [Bindings.Traced, if_pos hplain]
    · refine ⟨log, ?_, noted (if_neg hplain) hfollows⟩
      rwa [Bindings.Traced, if_neg hplain]

/-! ## The variables of a statement -/

/-- A list is checked up to one of its elements, and then from there. -/
theorem forM_append_cons {ι : Type} {f : ι → CheckM Unit} {front back : List ι} {x : ι} :
    (front ++ x :: back).forM f = front.forM f >>= fun _ => f x >>= fun _ => back.forM f := List.forM_append

/-- The check of some variables of a statement. -/
def checkEach (d : VariableStatement) (site : Site) (decls : List Declarator) : CheckM Unit :=
  decls.forM (checkDeclarator (d.modifiers.declared || site.file.isTypeDefinition) site)

section

variable {d : VariableStatement} {site : Site} {result : Option Ty} {before after : List Declarator} {decl : Declarator}
  {file : Path} {m : Nat} {s : State} {k : Key}

/-- The state in which the last of some variables of a statement is left. -/
def State.behind (s : State) (file : Path) (m : Nat) (d : VariableStatement) (site : Site) (decls : List Declarator) : State :=
  (((checkEach d site decls).run (answer file m)).run s).2

/-- The variables of a statement are checked one after the other. -/
theorem rule_variables (hd : d.declarators = before ++ decl :: after) : rule (.statement (.variableDecl d) site result) =
    checkEach d site before >>= fun _ => checkDeclarator (d.modifiers.declared || site.file.isTypeDefinition) site decl >>= fun _ =>
      checkEach d site after := by
  change checkEach d site d.declarators = _
  rw [hd]
  exact forM_append_cons

/-- A variable is checked for clashes first. -/
theorem answer_variables (hd : d.declarators = before ++ decl :: after) :
    (answer file (m + 1) (.judge (.statement (.variableDecl d) site result))).run s =
      (((if (s.behind file m d site before).known.bindings.isRedeclared site.scope ⟨.declarator, site.file, decl.span.start⟩ then
            report (.redeclared decl.name.name) decl.name.span >>= fun _ =>
              checkInitialised (d.modifiers.declared || site.file.isTypeDefinition) site decl
          else checkInitialised (d.modifiers.declared || site.file.isTypeDefinition) site decl) >>= fun _ =>
        checkEach d site after).run (answer file m)).run (s.behind file m d site before) := by
  have hrun : (answer file (m + 1) (.judge (.statement (.variableDecl d) site result))).run s =
      ((rule (.statement (.variableDecl d) site result)).run (answer file m)).run s := rfl
  -- What the variables before this one leave behind does not matter further.
  rw [hrun, rule_variables hd, run_bind_eq]
  change ((checkDeclarator _ site decl >>= fun _ => checkEach d site after).run (answer file m)).run
    (s.behind file m d site before) = _
  generalize s.behind file m d site before = s'
  have hbindings : (bindings.run (answer file m)).run s' = (s'.known.bindings, s') := by cases m <;> rfl
  rw [run_bind_eq, checkDeclarator_eq, run_bind_eq, hbindings, run_bind_eq]

variable (hs : s.Steady p) {height : Nat}
  (hq : (Question.judge (.statement (.variableDecl d) site result)).Proper height s.known.bindings)
  (hroom : s.room p + height ≤ m + 1)
include hs hq hroom

/-- There is room for the variables before this one, and behind them for the rest. -/
theorem asks_before (hd : d.declarators = before ++ decl :: after) :
    Asks (Statement.variableDecl d).content.height (fun b _ => Fine (Statement.variableDecl d).content.height
      (checkDeclarator (d.modifiers.declared || site.file.isTypeDefinition) site decl >>= fun _ => checkEach d site after) b)
      (checkEach d site before) s.known.bindings ∧ s.room p + (Statement.variableDecl d).content.height ≤ m := by
  obtain ⟨hstands, hheight⟩ := hq
  have hfine := fine_rule (.statement (.variableDecl d) site result) hs.valid hstands
  rw [rule_variables hd] at hfine
  change (Statement.variableDecl d).content.height < height at hheight
  exact ⟨hfine.of_bind, by omega⟩

theorem unwinds_behind (hp : p.WellRead) (file : Path) (hd : d.declarators = before ++ decl :: after) :
    Unwinds p s (fun b _ => Fine (Statement.variableDecl d).content.height
      (checkDeclarator (d.modifiers.declared || site.file.isTypeDefinition) site decl >>= fun _ => checkEach d site after) b)
      (((checkEach d site before).run (answer file m)).run s) :=
  have hasks := asks_before hs hq hroom hd
  (ends_run (answers hp file m) (Node.height_pos (.statement (.variableDecl d))) _ hs hasks.1 hasks.2).unwinds

/-- A variable that is noted as clashing is reported. -/
theorem mem_reports_variables (hp : p.WellRead) (hquiet : s.quiet = 0) (hd : d.declarators = before ++ decl :: after)
    (hredeclared : (s.behind file m d site before).known.bindings.isRedeclared site.scope
      ⟨.declarator, site.file, decl.span.start⟩ = true) :
    ⟨.redeclared decl.name.name, decl.name.span⟩ ∈
      ((answer file (m + 1) (.judge (.statement (.variableDecl d) site result))).run s).2.found.reports := by
  have hloud : (s.behind file m d site before).quiet = 0 := (unwinds_behind hs hq hroom hp file hd).loud hs hquiet
  rw [answer_variables hd, if_pos hredeclared]
  generalize s.behind file m d site before = s' at hloud
  refine (grow_run file m (checkInitialised (d.modifiers.declared || site.file.isTypeDefinition) site decl >>= fun _ =>
    checkEach d site after) _).reports ?_
  change _ ∈ ((answer file m (.report _ _)).run s').2.found.reports
  rw [answer_report, State.find_of_loud hloud]
  exact List.mem_cons_self

/-- If it is not noted, there is room for one report less. -/
theorem tally_variables (hp : p.WellRead) (hquiet : s.quiet = 0) (hd : d.declarators = before ++ decl :: after)
    (hredeclared : ¬(s.behind file m d site before).known.bindings.isRedeclared site.scope
      ⟨.declarator, site.file, decl.span.start⟩ = true) :
    tally k ((answer file (m + 1) (.judge (.statement (.variableDecl d) site result))).run s).2.found +
        k.cost (.redeclared decl.name.name) decl.name.span ≤
      tally k s.found + (Question.judge (.statement (.variableDecl d) site result)).cost k := by
  let ambient := d.modifiers.declared || site.file.isTypeDefinition
  have first := unwinds_behind (m := m) hs hq hroom hp file hd
  obtain ⟨hasks, hm⟩ := asks_before (m := m) hs hq hroom hd
  have hpos := (Node.statement (.variableDecl d)).height_pos
  have himport (b : Bindings) (hb : Later s.known.bindings b) : (b.lookupValue site.scope "import").isSome :=
    hb.valid.lookup_import (hb.grows.stands _ hq.1)
  -- The variables before this one, and then the rest without a report about this one.
  have hbefore := tally_run hp (tally_answer hp k file m) hpos _ hs hasks hm hquiet himport
    (Spends.forM fun decl _ => costs_checkDeclarator ambient decl)
  obtain ⟨n, hcosts, hshare⟩ := @costs_checkInitialised k site.scope site ambient decl
  have hspends : Costs k site.scope (checkInitialised ambient site decl >>= fun _ => checkEach d site after)
      (n + (after.map fun decl => k.share decl.content.spots).sum) :=
    hcosts.bind (fun _ _ => Spends.forM fun decl _ => costs_checkDeclarator ambient decl) (Nat.le_refl _)
  have hrest : Fine (Node.statement (.variableDecl d)).content.height (checkInitialised ambient site decl >>= fun _ =>
      checkEach d site after) (s.behind file m d site before).known.bindings := by
    have hall := first.result.2 _ _ (.refl first.steady.valid) rfl
    change Fine _ ((if (s.behind file m d site before).known.bindings.isRedeclared site.scope
      ⟨.declarator, site.file, decl.span.start⟩ then report _ _ >>= fun _ => checkInitialised ambient site decl
      else checkInitialised ambient site decl) >>= fun _ => checkEach d site after) _ at hall
    rwa [if_neg hredeclared] at hall
  have hafter := tally_run hp (tally_answer hp k file m) hpos _ first.steady hrest (by rwa [State.room_congr first.resolving])
    (first.loud hs hquiet) (fun b hb => himport b (first.later.trans hb)) hspends
  have hcost : (Question.judge (.statement (.variableDecl d) site result)).cost k =
      (before.map fun decl => k.share decl.content.spots).sum +
        (k.share decl.content.spots + (after.map fun decl => k.share decl.content.spots).sum) := by
    have hcontent : (Question.judge (.statement (.variableDecl d) site result)).cost k =
        k.share (declaratorsContent d.declarators).spots := by cases d; rfl
    rw [hcontent, declaratorsContent_eq, Key.share_foldr, hd, List.map_append, List.sum_append, List.map_cons, List.sum_cons]
  rw [answer_variables hd, if_neg hredeclared, hcost]
  change tally k (s.behind file m d site before).found ≤ _ at hbefore
  change _ ≤ tally k (s.behind file m d site before).found + _ at hafter
  refine Nat.le_trans (Nat.add_le_add_right hafter _) ?_
  omega

end

/-! ## The statements of a file -/

/-- Each statement of a file comes up when the file is checked. -/
theorem comes_statement (hp : p.WellRead) {s : State} (hs : s.Steady p) {unit : SourceUnit} (hunit : unit ∈ p.units)
    (hquiet : s.quiet = 0) {stmt : Statement} (hstmt : stmt ∈ unit.tree.statements) :
    ∃ s', Comes unit.path (depthBound p) (checkUnit unit) s (depthBound p)
      (.judge (.statement stmt (s.known.bindings.fileSite unit) none)) s' ∧ s'.quiet = 0 := by
  obtain ⟨front, back, hstatements⟩ := List.append_of_mem hstmt
  let site := s.known.bindings.fileSite unit
  have hfine := (hs.fine_checkUnit hp hunit).2 _ s.known.bindings (.refl hs.valid) rfl
  change Fine _ (unit.tree.statements.forM (checkStatement · site none)) _ at hfine
  rw [hstatements, forM_append_cons] at hfine
  have hfront := (ends_run (answers hp unit.path _) (Nat.zero_lt_of_lt hp.cacheable_lt) _ hs hfine.of_bind (room_le hp)).unwinds
  refine ⟨_, ?_, hfront.loud hs hquiet⟩
  have hbindings : (answer unit.path (depthBound p) .bindings).run s = (s.known.bindings, s) := by cases depthBound p <;> rfl
  refine Comes.next (q := .bindings) ?_
  rw [hbindings]
  change Comes _ _ (unit.tree.statements.forM (checkStatement · site none)) _ _ _ _
  rw [hstatements, forM_append_cons]
  exact .of_bind (.ask _ _ _ _)

end Check

namespace TypeChecker

/-- In the check of a file, outside of silent computations, a statement with this variable comes up. Behind the variables before
this one the bindings are `b`. -/
def Declares (c : TypeChecker) (unit : SourceUnit) (decl : Declarator) (site : Site) (b : Bindings) : Prop :=
  ∃ d before after result m s,
    Comes unit.path (depthBound c.program) (checkUnit unit) (.start c.known) (m + 1)
      (.judge (.statement (.variableDecl d) site result)) s ∧
    s.quiet = 0 ∧ d.declarators = before ++ decl :: after ∧ (s.behind unit.path m d site before).known.bindings = b

variable {p : Program} {unit : SourceUnit} {decl : Declarator} {site : Site} {b : Bindings}

theorem recorded_after (hp : p.WellRead) (asked : List Path) : Recorded p ((ofProgram p).after asked).known.bindings :=
  Lasting.after (lasting_recorded p) hp (idle_ofProgram hp) rfl (recorded_ofProgram p) asked

/-- The variables that a file declares outside of functions and blocks come up, and what was done until then is not without
them. -/
theorem declares_of_mem (hp : p.WellRead) (asked : List Path) (hunit : unit ∈ p.units) {d : VariableStatement}
    (hd : .variableDecl d ∈ unit.tree.statements) (hdecl : decl ∈ d.declarators) :
    let site := (Bindings.ofProgram p).fileSite unit
    ∃ b, ((ofProgram p).after asked).Declares unit decl site b ∧
      ∀ log, b.Traced p site.scope log → .variable decl d.kind site ∈ log := by
  have hprogram : ((ofProgram p).after asked).program = p := program_after asked
  have hidle := (idle_ofProgram hp).after hp asked
  have hrecorded := recorded_after hp asked
  generalize (ofProgram p).after asked = c at hprogram hidle hrecorded
  intro site
  have hsite : c.known.bindings.fileSite unit = site := by
    obtain ⟨log, hhistory, -⟩ := hrecorded
    rw [Bindings.fileSite, hhistory.fileScopes]
    rfl
  have hsteady : (State.start c.known).Steady p := hprogram ▸ hidle.steady
  obtain ⟨s, hcomes, hloud⟩ := comes_statement hp hsteady hunit rfl hd
  obtain ⟨before, after, hdeclarators⟩ := List.append_of_mem hdecl
  obtain ⟨m, hdepth⟩ := Nat.exists_eq_add_of_lt (hcomes.steady hp hsteady (Nat.zero_lt_of_lt hp.cacheable_lt)
    (hsteady.fine_checkUnit hp hunit) (room_le hp)).2
  rw [Nat.zero_add] at hdepth
  refine ⟨_, ⟨d, before, after, none, m, s, ?_, hloud, hdeclarators, rfl⟩, fun log hlog => ?_⟩
  · rw [hprogram, ← hdepth, ← hsite]
    exact hcomes
  · obtain ⟨n, hn⟩ : ∃ n, site.scope = .main n := by
      have hhome : site.scope.home = .main 0 :=
        ((valid_ofProgram hp.orderly).files unit ((Bindings.program_ofProgram p).symm ▸ hunit)).1
      cases hscope : site.scope with
      | main n => exact ⟨n, rfl⟩
      | inner =>
        rw [hscope] at hhome
        cases hhome
    have hhistory : (s.behind unit.path m d site before).known.bindings.History p log := by
      rwa [hn] at hlog
    exact hhistory.programDeeds_subset (Bindings.mem_programDeeds hunit hd hdecl)

/-- A variable is reported as declared again if it met one that held its name and clashes with it, or was met so while it held
the name itself, in all that was done until it is checked, and otherwise it is not. -/
theorem redeclared_iff (hp : p.WellRead) (asked : List Path) (hunit : unit ∈ p.units)
    (h : ((ofProgram p).after asked).Declares unit decl site b) : ∃ log, b.Traced p site.scope log ∧
      (⟨.redeclared decl.name.name, decl.name.span⟩ ∈ ((ofProgram p).after asked).reports unit ↔
        Redeclared log site.scope ⟨.declarator, site.file, decl.span.start⟩) := by
  have hprogram : ((ofProgram p).after asked).program = p := program_after asked
  have hidle := (idle_ofProgram hp).after hp asked
  have hrecorded := recorded_after hp asked
  generalize (ofProgram p).after asked = c at hprogram hidle hrecorded h ⊢
  have hsteady : (State.start c.known).Steady p := hprogram ▸ hidle.steady
  obtain ⟨d, before, after, result, m, s, hcomes, hloud, hd, rfl⟩ := h
  rw [hprogram] at hcomes
  have hfine := hsteady.fine_checkUnit hp hunit
  have hpos := Nat.zero_lt_of_lt hp.cacheable_lt
  obtain ⟨hs, height, hheight, hproper, hroom⟩ := hcomes.proper hp hsteady hpos hfine (room_le hp)
  have hthen : Recorded p s.known.bindings :=
    (lasting_recorded p unit.path).comes hp hcomes hsteady hpos hfine (room_le hp) hrecorded
  obtain ⟨hasks, hm⟩ := asks_before hs hproper hroom hd
  have hbehind : Recorded p (s.behind unit.path m d site before).known.bindings :=
    Lasting.run hp ((lasting_recorded p unit.path).answer hp m) (Node.height_pos (.statement (.variableDecl d))) hs hasks hm hthen
  obtain ⟨log, htraced, hlog⟩ := hbehind.isRedeclared_iff site.scope
  refine ⟨log, htraced, ?_⟩
  rw [← hlog, mem_reports_iff (r := ⟨.redeclared decl.name.name, decl.name.span⟩) fun _ => nofun, hprogram]
  constructor
  · intro hr
    by_contra hredeclared
    -- If the variable says nothing, the room that it takes up for this report is left empty.
    let k := (Check.Report.mk (.redeclared decl.name.name) decl.name.span).key
    have hvariables := tally_variables (k := k) hs hproper hroom hp hloud hd hredeclared
    have hall := hcomes.tally hp hsteady hpos hfine (room_le hp) rfl (fun _ hb => hb.valid.lookup_import_global)
      (costs_checkUnit k globalScope unit) hloud
    have hown : k.cost (.redeclared decl.name.name) decl.name.span = 1 := if_pos rfl
    have hone := k.share_le_one (hp.read_of_mem hunit).fits.placed.nodup
    have htally : 0 < tally k (c.check unit (depthBound p)).found := List.count_pos_iff.mpr (List.mem_map_of_mem hr)
    change tally k (c.check unit (depthBound p)).found + _ ≤ 0 + _ + _ at hall
    omega
  · intro hredeclared
    exact (hcomes.found hloud).reports (mem_reports_variables hs hproper hroom hp hloud hd hredeclared)

/-- Two variables that do not clash, and one that clashes with either. -/
def thrice : Program :=
  .ofHost [⟨"/a.ts"⟩] .standard (Files.toHost (.ofList [
    (⟨"/a.ts"⟩, "export \x7b\x7d;var a = 1;var a = 2;let a = 3")]))

theorem thrice_wellRead : thrice.WellRead := Program.wellRead_ofHost _ _ _

theorem firstUnit_thrice_mem : firstUnit thrice ∈ thrice.units := firstUnit_mem thrice_wellRead (by decide +kernel)

set_option maxRecDepth 100000 in
/-- The statements with its second and its third variable. -/
theorem thrice_statements :
    .variableDecl ⟨default, .var, ⟨20, 23⟩, [⟨⟨"a", ⟨24, 25⟩⟩, none, some ⟨.number "2", ⟨28, 29⟩⟩, ⟨24, 29⟩⟩], ⟨20, 30⟩⟩ ∈
        (firstUnit thrice).tree.statements ∧
      .variableDecl ⟨default, .let, ⟨30, 33⟩, [⟨⟨"a", ⟨34, 35⟩⟩, none, some ⟨.number "3", ⟨38, 39⟩⟩, ⟨34, 39⟩⟩], ⟨30, 39⟩⟩ ∈
        (firstUnit thrice).tree.statements := by
  decide +kernel

theorem redeclared_iff_third : ∃ third site b,
    (thrice.WellRead ∧ firstUnit thrice ∈ thrice.units ∧
      ((ofProgram thrice).after []).Declares (firstUnit thrice) third site b) ∧
    ∃ log, b.Traced thrice site.scope log ∧
      (⟨.redeclared third.name.name, third.name.span⟩ ∈ ((ofProgram thrice).after []).reports (firstUnit thrice) ↔
        Redeclared log site.scope ⟨.declarator, site.file, third.span.start⟩) := by
  obtain ⟨b, hdeclares, -⟩ := declares_of_mem thrice_wellRead [] firstUnit_thrice_mem thrice_statements.2 List.mem_cons_self
  exact ⟨_, _, b, ⟨thrice_wellRead, firstUnit_thrice_mem, hdeclares⟩,
    redeclared_iff thrice_wellRead [] firstUnit_thrice_mem hdeclares⟩

set_option maxRecDepth 100000 in
/-- A variable that came behind another one without a clash is not reported when a third one clashes with both. -/
theorem second_unreported : ∃ second third site b,
    (thrice.WellRead ∧ firstUnit thrice ∈ thrice.units ∧ (ofProgram thrice).Declares (firstUnit thrice) second site b) ∧
    (.variable second .var site ∈ Bindings.programDeeds thrice ∧ .variable third .let site ∈ Bindings.programDeeds thrice ∧
      second.name.name = third.name.name) ∧
    ⟨.redeclared second.name.name, second.name.span⟩ ∉ (ofProgram thrice).reports (firstUnit thrice) := by
  obtain ⟨hsecond, hthird⟩ := thrice_statements
  obtain ⟨b, hdeclares, -⟩ := declares_of_mem thrice_wellRead [] firstUnit_thrice_mem hsecond List.mem_cons_self
  have hreports : (ofProgram thrice).reports (firstUnit thrice) =
      [⟨.redeclared "a", ⟨14, 15⟩⟩, ⟨.redeclared "a", ⟨34, 35⟩⟩] := by decide +kernel
  refine ⟨_, _, _, b, ⟨thrice_wellRead, firstUnit_thrice_mem, hdeclares⟩,
    ⟨Bindings.mem_programDeeds firstUnit_thrice_mem hsecond List.mem_cons_self,
      Bindings.mem_programDeeds firstUnit_thrice_mem hthird List.mem_cons_self, rfl⟩, ?_⟩
  rw [hreports]
  decide

end TypeChecker

end Recheck
