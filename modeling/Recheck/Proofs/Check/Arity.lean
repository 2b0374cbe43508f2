import Recheck.Proofs.Check.Attribution

/-!
# The number of arguments

A call has its own places for a report about the number of its arguments: the call itself, and the arguments from any of them
on (`Report.CountsArguments`). So a report there comes from the call, and whether there is one depends on the type of the
callee and on how many arguments there are. Of a function that takes any number of further arguments nothing is asked, not even
the arguments that it must have.
-/

set_option autoImplicit false

namespace Recheck

open Syntax Check

namespace Check

/-! ## Reports of a call -/

/-- A report about the number of arguments of this call. -/
def Report.CountsArguments (r : Report) (call : Span) (args : List Expr) : Prop :=
  r.fault.TooFew ∧ r.span = call ∨
    r.fault.TooMany ∧ ∃ n first rest, args.drop n = first :: rest ∧ r.span = coverSpan first rest

section

variable {r : Report} {call : Span} {args : List Expr} {f : FunctionTy}

theorem arityFault?_eq_none_iff {given : Nat} :
    arityFault? f given = none ↔ ¬∃ most, f.maxArgs? = some most ∧ (given < f.minArgs ∨ most < given) := by
  unfold arityFault?
  cases f.maxArgs? with
  | none => simp
  | some most => simp

/-- What a call reports about its arguments. -/
theorem countsArguments_arityFault {fault : Fault} (h : arityFault? f args.length = some fault) :
    Report.CountsArguments ⟨fault, argumentSpan call (args.drop (f.maxArgs?.getD args.length))⟩ call args := by
  unfold arityFault? at h
  split at h
  · rename_i most hmost
    split at h
    · rename_i hcount
      obtain rfl := Option.some.inj h
      rw [hmost, Option.getD_some]
      by_cases hmany : most < args.length
      · obtain ⟨first, rest, hdrop⟩ := List.exists_cons_of_length_pos (l := args.drop most) (by rw [List.length_drop]; omega)
        exact .inr ⟨hmany, most, first, rest, hdrop, by rw [hdrop, argumentSpan_cons]⟩
      · have hfew : args.length < f.minArgs := by simpa [hmany] using hcount
        refine .inl ⟨⟨hfew, Nat.le_of_not_lt hmany⟩, ?_⟩
        rw [List.drop_eq_nil_of_le (Nat.le_of_not_lt hmany)]
        rfl
    · cases h
  · cases h

theorem Report.CountsArguments.ne_unused (h : r.CountsArguments call args) (name : String) : r.fault ≠ .unused name := by
  intro hunused
  rw [CountsArguments, hunused] at h
  exact h.elim And.left And.left

/-- There is room for it at the call. -/
theorem Report.CountsArguments.room (h : r.CountsArguments call args) :
    0 < r.key.few call + r.key.share (surplusSpots args) := by
  obtain ⟨fault, span⟩ := r
  cases fault with
  | argumentCount least most given =>
    have hcount : (Report.mk (.argumentCount least most given) span).key.IsCount := rfl
    rcases h with ⟨⟨hfew, hmost⟩, hspan⟩ | ⟨hmany, n, first, rest, hdrop, hspan⟩
    · obtain rfl : span = call := hspan
      have hrole : (Fault.argumentCount least most given).role? = some .value := by
        simp [Fault.role?, hfew, Nat.not_lt.mpr hmost]
      rw [Key.few, if_pos hcount]
      simp [Key.share, Report.key, hrole]
    · have hrole : (Fault.argumentCount least most given).role? = some .surplus := by
        simp [Fault.role?, show most < given from hmany]
      have hshare := (Report.mk (.argumentCount least most given) span).key.share_le_of_mem (mem_surplusSpots hdrop)
      have hone : 0 < (Report.mk (.argumentCount least most given) span).key.share [(.surplus, coverSpan first rest)] := by
        rw [← show span = coverSpan first rest from hspan]
        simp [Key.share, Report.key, hrole]
      omega
  | _ => exact absurd h (by simp [Report.CountsArguments, Fault.TooFew, Fault.TooMany])

end

/-! ## The answer for a call -/

section

variable {p : Program} {k : Key} {file : Path} {m : Nat} {s : State} {callee : Expr} {args : List Expr} {call : Span}
  {site : Site} {expected : Option Ty} {f : FunctionTy}

/-- What the call does when the type of its callee is known. -/
theorem answer_call (hcallee : ((answer file m (.judge (.expr callee site none))).run s).1.nonNullable = .function f) :
    (answer file (m + 1) (.judge (.expr ⟨.call callee args, call⟩ site expected))).run s =
      ((do checkArity f call args; args.zipIdx.forM (checkArgument f site); return f.ret : CheckM Ty).run
        (answer file m)).run ((answer file m (.judge (.expr callee site none))).run s).2 := by
  have hrun : (answer file (m + 1) (.judge (.expr ⟨.call callee args, call⟩ site expected))).run s =
      ((callType call callee args site).run (answer file m)).run s := rfl
  have hfirst (next : Ty → CheckM Ty) : ((exprType callee site none >>= next).run (answer file m)).run s =
      ((next ((answer file m (.judge (.expr callee site none))).run s).1).run (answer file m)).run
        ((answer file m (.judge (.expr callee site none))).run s).2 := rfl
  rw [hrun, callType, hfirst, hcallee]

/-- A wrong number of arguments is reported. -/
theorem mem_reports_call (hcallee : ((answer file m (.judge (.expr callee site none))).run s).1.nonNullable = .function f)
    (hquiet : ((answer file m (.judge (.expr callee site none))).run s).2.quiet = 0) {fault : Fault}
    (hfault : arityFault? f args.length = some fault) :
    ⟨fault, argumentSpan call (args.drop (f.maxArgs?.getD args.length))⟩ ∈
      ((answer file (m + 1) (.judge (.expr ⟨.call callee args, call⟩ site expected))).run s).2.found.reports := by
  rw [answer_call hcallee, checkArity, hfault]
  refine (grow_run file m (do args.zipIdx.forM (checkArgument f site); return f.ret) _).reports ?_
  change _ ∈ ((answer file m (.report fault _)).run _).2.found.reports
  rw [answer_report, State.find_of_loud hquiet]
  exact List.mem_cons_self

/-- Apart from that only the callee and the arguments have something to report. -/
theorem tally_call (hp : p.WellRead) (hs : s.Steady p) {height : Nat}
    (hq : (Question.judge (.expr ⟨.call callee args, call⟩ site expected)).Proper height s.known.bindings)
    (hroom : s.room p + height ≤ m + 1) (hquiet : s.quiet = 0)
    (hcallee : ((answer file m (.judge (.expr callee site none))).run s).1.nonNullable = .function f)
    (hfault : arityFault? f args.length = none) :
    tally k ((answer file (m + 1) (.judge (.expr ⟨.call callee args, call⟩ site expected))).run s).2.found ≤
      tally k s.found + (k.share callee.content.spots + (args.map fun e => k.share e.content.spots).sum) := by
  obtain ⟨hstands, hheight⟩ := hq
  have hfine := fine_rule (.expr ⟨.call callee args, call⟩ site expected) hs.valid hstands
  have hm : s.room p + (Node.expr ⟨.call callee args, call⟩).content.height ≤ m := by
    change (Node.expr ⟨.call callee args, call⟩).content.height < height at hheight
    omega
  have hpos := (Node.expr ⟨.call callee args, call⟩).height_pos
  have first := (answers hp file m _ _ s hpos hs hfine.1 hm).unwinds
  have hfirst := tally_answer hp k file m _ _ s hpos hs hfine.1 hm hquiet
  have hown : (Judgement.expr callee site none).cost k ≤ k.share callee.content.spots := own_le_content k callee
  have hlater := hfine.2 _ _ first.later first.result
  dsimp only [CheckM.bind] at hlater
  rw [hcallee] at hlater
  dsimp only at hlater
  rw [checkArity, hfault] at hlater
  have hspends : Costs k site.scope (do args.zipIdx.forM (checkArgument f site); return f.ret : CheckM Ty)
      (args.map fun e => k.share e.content.spots).sum :=
    (costs_checkArguments f args).bind_pure fun _ _ => trivial
  have hrest := tally_run hp (tally_answer hp k file m) hpos (do args.zipIdx.forM (checkArgument f site); return f.ret)
    first.steady hlater (by rwa [State.room_congr first.resolving]) (loud_answer hp hpos hs hfine.1 hm hquiet)
    (fun b hb => hb.valid.lookup_import ((first.later.trans hb).grows.stands _ hstands)) hspends
  rw [answer_call hcallee, checkArity, hfault]
  refine Nat.le_trans hrest ?_
  change _ ≤ tally k s.found + (Judgement.expr callee site none).cost k at hfirst
  omega

end

end Check

namespace TypeChecker

/-- In the check of a file, outside of silent computations, a call comes up whose callee has a function type, leaving `null`
and `undefined` aside. -/
def Calls (c : TypeChecker) (unit : SourceUnit) (call : Span) (args : List Expr) (f : FunctionTy) : Prop :=
  ∃ callee site expected m s,
    Comes unit.path (depthBound c.program) (checkUnit unit) (.start c.known) (m + 1)
      (.judge (.expr ⟨.call callee args, call⟩ site expected)) s ∧
    s.quiet = 0 ∧ ((answer unit.path m (.judge (.expr callee site none))).run s).1.nonNullable = .function f

/-- All reports on a file. -/
def reports (c : TypeChecker) (unit : SourceUnit) : List Check.Report := (findings c.program c.known unit).1.ofUnit unit

/-- What is not about an import that is not used is reported in the check of the file. -/
theorem mem_reports_iff {c : TypeChecker} {unit : SourceUnit} {r : Check.Report} (h : ∀ name, r.fault ≠ .unused name) :
    r ∈ c.reports unit ↔ r ∈ (c.check unit (depthBound c.program)).found.reports := by
  unfold reports Findings.ofUnit
  rw [findings_eq_check, List.mem_append, List.mem_reverse, or_iff_left]
  intro hunused
  obtain ⟨name, -, rfl⟩ := List.mem_map.mp hunused
  exact h _ rfl

/-- Where a call says something about the number of its arguments it is because the call has too few or too many of them, for
a function that does not take any number of arguments; and then it does. -/
theorem countsArguments_iff {p : Program} (hp : p.WellRead) (asked : List Path) {unit : SourceUnit} (hunit : unit ∈ p.units)
    {call : Span} {args : List Expr} {f : FunctionTy} (h : ((ofProgram p).after asked).Calls unit call args f) :
    (∃ r ∈ ((ofProgram p).after asked).reports unit, r.CountsArguments call args) ↔
      ∃ most, f.maxArgs? = some most ∧ (args.length < f.minArgs ∨ most < args.length) := by
  have hprogram : ((ofProgram p).after asked).program = p := program_after asked
  have hidle := (idle_ofProgram hp).after hp asked
  generalize (ofProgram p).after asked = c at hprogram hidle h
  have hsteady : (State.start c.known).Steady p := hprogram ▸ hidle.steady
  obtain ⟨callee, site, expected, m, s, hcomes, hloud, hcallee⟩ := h
  rw [hprogram] at hcomes
  have hfine := hsteady.fine_checkUnit hp hunit
  have hpos := Nat.zero_lt_of_lt hp.cacheable_lt
  obtain ⟨hs, height, hheight, hproper, hroom⟩ := hcomes.proper hp hsteady hpos hfine (room_le hp)
  constructor
  · rintro ⟨r, hr, hcounts⟩
    by_contra hright
    -- If the call says nothing, the room that it takes up for this report is left empty.
    have hcall := tally_call (k := r.key) hp hs hproper hroom hloud hcallee (arityFault?_eq_none_iff.mpr hright)
    have hall := hcomes.tally hp hsteady hpos hfine (room_le hp) rfl (fun _ hb => hb.valid.lookup_import_global)
      (costs_checkUnit r.key globalScope unit) hloud
    have hcost : (Question.judge (.expr ⟨.call callee args, call⟩ site expected)).cost r.key = r.key.few call +
        (r.key.share callee.content.spots + r.key.share (argsContent args).spots) :=
      congrArg (r.key.few call + ·) (r.key.share_append _ _)
    rw [hcost, share_argsContent] at hall
    have hone := r.key.share_le_one (hp.read_of_mem hunit).fits.placed.nodup
    have htally : 0 < tally r.key (c.check unit (depthBound p)).found :=
      List.count_pos_iff.mpr (List.mem_map_of_mem (hprogram ▸ (mem_reports_iff hcounts.ne_unused).mp hr))
    have hroom := hcounts.room
    change tally r.key (c.check unit (depthBound p)).found + _ ≤ 0 + _ + _ at hall
    omega
  · intro hwrong
    obtain ⟨fault, hfault⟩ := Option.ne_none_iff_exists'.mp (mt arityFault?_eq_none_iff.mp (not_not.mpr hwrong))
    have hcounts : Report.CountsArguments _ call args := countsArguments_arityFault hfault
    refine ⟨_, (mem_reports_iff hcounts.ne_unused).mpr ?_, hcounts⟩
    rw [hprogram]
    obtain ⟨hstands, hlow⟩ := hproper
    have hpart := (fine_rule (.expr ⟨.call callee args, call⟩ site expected) hs.valid hstands).1
    exact (hcomes.found hloud).reports (mem_reports_call hcallee
      (loud_answer hp (Node.height_pos _) hs hpart (by omega) hloud) hfault)

/-- A call that is the first statement of a file comes up at once. -/
theorem calls_first {c : TypeChecker} {unit : SourceUnit} {call : Span} {callee : Expr} {args : List Expr} {f : FunctionTy}
    {depth : Nat} (hdepth : depthBound c.program = depth + 2)
    (hfirst : unit.tree.statements.head? = some (.expression ⟨.call callee args, call⟩))
    (hcallee : ((answer unit.path depth (.judge (.expr callee (c.known.bindings.fileSite unit) none))).run
      (.start c.known)).1.nonNullable = .function f) : c.Calls unit call args f := by
  obtain ⟨rest, hstatements⟩ : ∃ rest, unit.tree.statements = .expression ⟨.call callee args, call⟩ :: rest := by
    cases hlist : unit.tree.statements with
    | nil => rw [hlist] at hfirst; cases hfirst
    | cons s rest => rw [hlist] at hfirst; exact ⟨rest, congrArg (· :: rest) (Option.some.inj hfirst)⟩
  refine ⟨callee, c.known.bindings.fileSite unit, none, depth, .start c.known, ?_, rfl, hcallee⟩
  have hcheck : checkUnit unit = .ask .bindings fun b =>
      unit.tree.statements.forM (checkStatement · ⟨unit.path, (b.fileScopes.get? unit.path).getD globalScope⟩ none) := rfl
  rw [hdepth, hcheck, hstatements]
  exact .next (.judge (.ask (depth + 1) _ _ _))

/-- A call with an argument too many. -/
def excessive : Program :=
  .ofHost [⟨"/a.ts"⟩] .standard (Files.toHost (.ofList [(⟨"/a.ts"⟩, "f(1, 2);declare function f(x: number): void;")]))

/-- A call without the argument that it must have, of a function that takes any number of others. -/
def lenient : Program :=
  .ofHost [⟨"/a.ts"⟩] .standard (Files.toHost (.ofList [
    (⟨"/a.ts"⟩, "f();declare function f(x: number, ...rest: number[]): void;")]))

theorem exists_function (type : Ty) (holds : FunctionTy → Bool)
    (h : (match type with | .function f => holds f | _ => false) = true) : ∃ f, type = .function f ∧ holds f = true := by
  split at h
  · exact ⟨_, rfl, h⟩
  · exact nomatch h

/-- The first file of a program. -/
def firstUnit (p : Program) : SourceUnit := (p.unit? ⟨"/a.ts"⟩).getD default

theorem firstUnit_mem {p : Program} (hp : p.WellRead) (h : (p.unit? ⟨"/a.ts"⟩).isSome = true) : firstUnit p ∈ p.units := by
  obtain ⟨unit, hunit⟩ := Option.isSome_iff_exists.mp h
  rw [firstUnit, hunit]
  exact (hp.mem_of_unit? hunit).1

set_option maxRecDepth 100000 in
theorem countsArguments_excessive : ∃ call args f,
    (excessive.WellRead ∧ firstUnit excessive ∈ excessive.units ∧
      ((ofProgram excessive).after []).Calls (firstUnit excessive) call args f) ∧
    ((∃ r ∈ ((ofProgram excessive).after []).reports (firstUnit excessive), r.CountsArguments call args) ↔
      ∃ most, f.maxArgs? = some most ∧ (args.length < f.minArgs ∨ most < args.length)) := by
  have hp : excessive.WellRead := Program.wellRead_ofHost _ _ _
  have hunit : firstUnit excessive ∈ excessive.units := firstUnit_mem hp (by decide +kernel)
  have hfirst : (firstUnit excessive).tree.statements.head? = some (.expression
    ⟨.call ⟨.ident "f", ⟨0, 1⟩⟩ [⟨.number "1", ⟨2, 3⟩⟩, ⟨.number "2", ⟨5, 6⟩⟩], ⟨0, 7⟩⟩) := by decide +kernel
  have hdepth : depthBound excessive = 8279 + 2 := by decide +kernel
  obtain ⟨f, hcallee, -⟩ := exists_function
    ((answer (firstUnit excessive).path 8279 (.judge (.expr ⟨.ident "f", ⟨0, 1⟩⟩
      ((ofProgram excessive).known.bindings.fileSite (firstUnit excessive)) none))).run
      (.start (ofProgram excessive).known)).1.nonNullable (fun f => f.maxArgs? = some 1) (by decide +kernel)
  have hcalls : ((ofProgram excessive).after []).Calls (firstUnit excessive) _ _ f := calls_first hdepth hfirst hcallee
  exact ⟨_, _, f, ⟨hp, hunit, hcalls⟩, countsArguments_iff hp [] hunit hcalls⟩

set_option maxRecDepth 100000 in
/-- Further arguments that a function takes hide those that are missing. -/
theorem rest_hides_arguments : ∃ call args f,
    (lenient.WellRead ∧ firstUnit lenient ∈ lenient.units ∧ (ofProgram lenient).Calls (firstUnit lenient) call args f) ∧
    args.length < f.minArgs ∧ ¬∃ r ∈ (ofProgram lenient).reports (firstUnit lenient), r.CountsArguments call args := by
  have hp : lenient.WellRead := Program.wellRead_ofHost _ _ _
  have hunit : firstUnit lenient ∈ lenient.units := firstUnit_mem hp (by decide +kernel)
  have hfirst : (firstUnit lenient).tree.statements.head? =
    some (.expression ⟨.call ⟨.ident "f", ⟨0, 1⟩⟩ [], ⟨0, 3⟩⟩) := by decide +kernel
  have hdepth : depthBound lenient = 14639 + 2 := by decide +kernel
  obtain ⟨f, hcallee, hleast⟩ := exists_function
    ((answer (firstUnit lenient).path 14639 (.judge (.expr ⟨.ident "f", ⟨0, 1⟩⟩
      ((ofProgram lenient).known.bindings.fileSite (firstUnit lenient)) none))).run
      (.start (ofProgram lenient).known)).1.nonNullable (fun f => 0 < f.minArgs) (by decide +kernel)
  have hnone : (ofProgram lenient).reports (firstUnit lenient) = [] := by decide +kernel
  refine ⟨_, _, f, ⟨hp, hunit, calls_first hdepth hfirst hcallee⟩, of_decide_eq_true hleast, ?_⟩
  rw [hnone]
  rintro ⟨r, hr, -⟩
  exact nomatch hr

end TypeChecker

end Recheck
