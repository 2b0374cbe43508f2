import Recheck.Worker.Service
import Mathlib.Data.List.Forall2

/-!
# Reporting leaves checking alone

The settings of a worker say what is checked and how the findings are reported: which are left out, whether lint
failures count as errors, how messages are written. A session keeps what failed and what was linted for its later
cycles, so a finding that was left out before the session took note of it would be missing from then on. It is left
out of the result of the cycle instead, when the session has moved on. Two workers that differ in such settings only
stay together through any requests (`Together.after`), and the reports that they make of a cycle are two views of the
same findings (`CycleReport.shows_ofCycle`).
-/

set_option autoImplicit false

namespace Recheck

/-- The part of the settings that says how findings are reported. -/
structure Reporting where
  ignoreDiagnostics : List Nat
  ignoreLints : List String
  lintEmitErrors : Bool
  diagnosticFormat : DiagnosticFormat

/-- The settings with another way of reporting. -/
def CheckerConfig.reporting (c : CheckerConfig) (r : Reporting) : CheckerConfig :=
  { c with
    ignoreDiagnostics := r.ignoreDiagnostics
    ignoreLints := r.ignoreLints
    lintEmitErrors := r.lintEmitErrors
    diagnosticFormat := r.diagnosticFormat }

/-! ## What a report shows -/

/-- What a cycle finds. -/
inductive Found where
  | diagnostic (d : Diagnostic)
  | failure (f : Lint.Failure)

/-- All that a cycle found, in its order. -/
def CycleResult.found (r : CycleResult) : List Found :=
  r.diagnostics.map .diagnostic ++ r.lintFailures.map .failure

namespace Found

variable (c : CheckerConfig)

/-- A diagnostic is left out by its number, a lint failure by its rule. -/
def Ignored : Found → Prop
  | diagnostic d => d.code ∈ c.ignoreDiagnostics
  | failure f => f.rule ∈ c.ignoreLints

instance : DecidablePred (Ignored c)
  | diagnostic d => inferInstanceAs (Decidable (d.code ∈ c.ignoreDiagnostics))
  | failure f => inferInstanceAs (Decidable (f.rule ∈ c.ignoreLints))

/-- The severity with which it is reported. -/
def severity : Found → Severity
  | diagnostic d => d.severity
  | failure f => if c.lintEmitErrors then .error else f.severity

/-- An item says what was found and where, and how serious it is. -/
def ShownAs : Found → ReportItem → Prop
  | diagnostic d, .diagnostic item =>
    item.message = d.message ∧ item.code = d.code ∧ item.severity = d.severity ∧ item.file = d.file ∧
      item.line = d.position.map (·.line) ∧ item.character = d.position.map (·.character)
  | failure f, .lint item =>
    item.message = f.message ∧ item.rule = f.rule ∧ item.severity = severity c (failure f) ∧ item.file = f.file ∧
      item.line = f.position.line ∧ item.character = f.position.character
  | _, _ => False

/-- What is reported among the errors. -/
def IsError (found : Found) : Prop := ¬found.Ignored c ∧ found.severity c ≠ .warning

/-- What is reported among the warnings. -/
def IsWarning (found : Found) : Prop := ¬found.Ignored c ∧ found.severity c = .warning

instance : DecidablePred (IsError c) := fun found =>
  inferInstanceAs (Decidable (¬found.Ignored c ∧ found.severity c ≠ .warning))

instance : DecidablePred (IsWarning c) := fun found =>
  inferInstanceAs (Decidable (¬found.Ignored c ∧ found.severity c = .warning))

/-- The item that is made of it. -/
def item (program? : Option Program) : Found → ReportItem
  | diagnostic d => (ReportStyle.ofConfig c).diagnosticItem program? d
  | failure f => (ReportStyle.ofConfig c).lintItem f

theorem shownAs_item (program? : Option Program) (found : Found) : found.ShownAs c (found.item c program?) := by
  cases found with
  | diagnostic d => exact ⟨rfl, rfl, rfl, rfl, rfl, rfl⟩
  | failure f => exact ⟨rfl, rfl, rfl, rfl, rfl, rfl⟩

theorem isWarning_item (program? : Option Program) (found : Found) :
    (found.item c program?).isWarning = decide (found.severity c = .warning) := by
  cases found <;> rfl

end Found

/-- A report shows what a cycle found, but for what the settings leave out: each finding by one item, in the order
of the cycle, those that are just warnings apart from all others. -/
structure CycleReport.Shows (report : CycleReport) (c : CheckerConfig) (cycle : CycleResult) : Prop where
  errors : List.Forall₂ (Found.ShownAs c) (cycle.found.filter (Found.IsError c)) report.errors
  warnings : List.Forall₂ (Found.ShownAs c) (cycle.found.filter (Found.IsWarning c)) report.warnings

namespace CycleReport

variable (c : CheckerConfig) (cycle : CycleResult) (program? : Option Program)

/-- The items of a report are made of the findings that are not left out. -/
theorem items_applyIgnores :
    (ReportStyle.ofConfig c).items (cycle.applyIgnores c).diagnostics (cycle.applyIgnores c).lintFailures program? =
      (cycle.found.filter fun found => ¬found.Ignored c).map (Found.item c program?) := by
  have hdiagnostics : (cycle.applyIgnores c).diagnostics =
      cycle.diagnostics.filter fun d => ¬(Found.diagnostic d).Ignored c :=
    List.filter_congr fun d _ => by
      rw [CheckerConfig.ignoresDiagnostic, List.contains_eq_mem, ← decide_not]
      rfl
  have hfailures : (cycle.applyIgnores c).lintFailures =
      cycle.lintFailures.filter fun f => ¬(Found.failure f).Ignored c :=
    List.filter_congr fun f _ => by
      rw [CheckerConfig.ignoresLint, List.contains_eq_mem, ← decide_not]
      rfl
  rw [ReportStyle.items, CycleResult.found, List.filter_append, List.map_append, List.filter_map, List.filter_map,
    List.map_map, List.map_map, hdiagnostics, hfailures]
  rfl

/-- To sort the items of a report into errors and warnings is to sort the findings. -/
theorem ofCycle_eq :
    (ofCycle (cycle.applyIgnores c) (.ofConfig c) program?).errors =
        (cycle.found.filter (Found.IsError c)).map (Found.item c program?) ∧
      (ofCycle (cycle.applyIgnores c) (.ofConfig c) program?).warnings =
        (cycle.found.filter (Found.IsWarning c)).map (Found.item c program?) := by
  unfold ofCycle ofItems
  rw [items_applyIgnores, List.filter_map, List.filter_map, List.filter_filter, List.filter_filter]
  refine ⟨congrArg _ (List.filter_congr fun found _ => ?_), congrArg _ (List.filter_congr fun found _ => ?_)⟩
  · rw [Bool.eq_iff_iff, Function.comp_apply, Found.isWarning_item]
    simp only [Bool.and_eq_true, Bool.not_eq_true', decide_eq_false_iff_not, decide_eq_true_eq]
    exact and_comm
  · rw [Bool.eq_iff_iff, Function.comp_apply, Found.isWarning_item]
    simp only [Bool.and_eq_true, decide_eq_true_eq]
    exact and_comm

theorem shows_ofCycle : (ofCycle (cycle.applyIgnores c) (.ofConfig c) program?).Shows c cycle := by
  have hshown : ∀ kept : List Found, List.Forall₂ (Found.ShownAs c) kept (kept.map (Found.item c program?)) :=
    fun kept => List.forall₂_map_right_iff.mpr
      (List.forall₂_same.mpr fun found _ => Found.shownAs_item c program? found)
  obtain ⟨herrors, hwarnings⟩ := ofCycle_eq c cycle program?
  exact ⟨herrors ▸ hshown _, hwarnings ▸ hshown _⟩

end CycleReport

/-! ## Two workers -/

namespace Service

variable {w v : Service}

/-- A worker after some requests, each of which finds the files as a host has them. -/
def after (w : Service) (requests : List (Host × Request)) : Service :=
  requests.foldl (fun w (host, request) => (w.handle host request).2) w

/-- The cycle that a worker runs for a request, if it runs one. -/
def cycle? (w : Service) (host : Host) : Request → Option CycleResult
  | .check files => w.session?.map fun session => ((session.updateBuilt files).run host).1
  | _ => none

theorem config_handle (w : Service) (host : Host) (request : Request) :
    (w.handle host request).2.config = w.config := by
  obtain ⟨c, session?⟩ := w
  cases request with
  | init =>
    unfold handle initialise
    cases Session.ofConfig c host <;> rfl
  | invalidateFiles changed removed => cases session? <;> rfl
  | relatedFiles => cases session? <;> rfl
  | check files => cases session? <;> rfl

/-- Two workers that set up the same sessions and are in the same session. -/
structure Together (w v : Service) : Prop where
  setup : ∀ host, Session.ofConfig w.config host = Session.ofConfig v.config host
  session : w.session? = v.session?

/-- A step of two workers: they stay together, and but for the report of a cycle they answer alike. -/
theorem Together.handle (h : w.Together v) (host : Host) (request : Request) :
    (w.handle host request).2.session? = (v.handle host request).2.session? ∧
      (w.cycle? host request = none → (w.handle host request).1 = (v.handle host request).1) := by
  obtain ⟨c, session?⟩ := w
  obtain ⟨d, session?⟩ := v
  obtain ⟨hsetup, rfl⟩ := h
  cases request with
  | init =>
    unfold Service.handle initialise
    simp only [hsetup host]
    cases Session.ofConfig d host <;> exact ⟨rfl, fun _ => rfl⟩
  | invalidateFiles changed removed => cases session? <;> exact ⟨rfl, fun _ => rfl⟩
  | relatedFiles => cases session? <;> exact ⟨rfl, fun _ => rfl⟩
  | check files =>
    cases session? with
    | none => exact ⟨rfl, fun _ => rfl⟩
    | some session => exact ⟨rfl, fun hnone => nomatch hnone⟩

theorem Together.after (h : w.Together v) (requests : List (Host × Request)) :
    (w.after requests).Together (v.after requests) := by
  induction requests generalizing w v with
  | nil => exact h
  | cons request requests ih =>
    refine ih ⟨fun host => ?_, (h.handle request.1 request.2).1⟩
    rw [config_handle, config_handle]
    exact h.setup host

theorem config_after (w : Service) (requests : List (Host × Request)) : (w.after requests).config = w.config := by
  induction requests generalizing w with
  | nil => rfl
  | cons request requests ih => exact (ih _).trans (config_handle w request.1 request.2)

/-- How findings are reported says nothing about how a session is set up. -/
theorem together_reporting (c : CheckerConfig) (r : Reporting) :
    (ofConfig c).Together (ofConfig (c.reporting r)) := ⟨fun _ => rfl, rfl⟩

/-- The request for a cycle is answered with a report that shows the cycle. -/
theorem shows_handle {host : Host} {request : Request} {cycle : CycleResult}
    (h : w.cycle? host request = some cycle) :
    ∃ report, (w.handle host request).1 = .ok (.report report) ∧ report.Shows w.config cycle := by
  obtain ⟨c, session?⟩ := w
  cases request with
  | init => exact nomatch h
  | invalidateFiles changed removed => exact nomatch h
  | relatedFiles => exact nomatch h
  | check files =>
    cases session? with
    | none => exact nomatch h
    | some session =>
      obtain rfl := Option.some.inj h
      exact ⟨_, rfl, CycleReport.shows_ofCycle c _ _⟩

/-- Without a cycle no report is made. -/
theorem not_report_of_cycle?_eq_none {host : Host} {request : Request} (h : w.cycle? host request = none)
    (report : CycleReport) : (w.handle host request).1 ≠ .ok (.report report) := by
  obtain ⟨c, session?⟩ := w
  cases request with
  | init =>
    unfold handle initialise
    cases Session.ofConfig c host <;> exact nofun
  | invalidateFiles changed removed => cases session? <;> exact nofun
  | relatedFiles => cases session? <;> exact nofun
  | check files =>
    cases session? with
    | none => exact nofun
    | some session => exact nomatch h

/-- **How findings are reported never influences what is found.** Take two workers whose settings differ only in how
findings are reported, give them the same requests while the files are the same, and then one more. They are in the
same session. If the request runs a cycle, it is the same cycle, and each worker answers with a report that shows it
under its own settings: each finding that they do not leave out once, in the order of the cycle, among the warnings
exactly if it is reported as one. If not, the two answers are the same, and no reports. -/
theorem reporting_never_influences (c : CheckerConfig) (r : Reporting) (requests : List (Host × Request))
    (host : Host) (request : Request) :
    let w := (ofConfig c).after requests
    let v := (ofConfig (c.reporting r)).after requests
    w.session? = v.session? ∧ w.cycle? host request = v.cycle? host request ∧
      match w.cycle? host request with
      | some cycle => ∃ report report',
        ((w.handle host request).1 = .ok (.report report) ∧ report.Shows c cycle) ∧
        ((v.handle host request).1 = .ok (.report report') ∧ report'.Shows (c.reporting r) cycle)
      | none => (w.handle host request).1 = (v.handle host request).1 ∧
        ∀ report, (w.handle host request).1 ≠ .ok (.report report) := by
  intro w v
  have htogether : w.Together v := (together_reporting c r).after requests
  have hcycle : w.cycle? host request = v.cycle? host request := by
    unfold cycle?
    rw [htogether.session]
  refine ⟨htogether.session, hcycle, ?_⟩
  cases hw : w.cycle? host request with
  | none => exact ⟨(htogether.handle host request).2 hw, not_report_of_cycle?_eq_none hw⟩
  | some cycle =>
    obtain ⟨report, hanswer, hshows⟩ := shows_handle hw
    obtain ⟨report', hanswer', hshows'⟩ := shows_handle (hcycle ▸ hw)
    rw [show w.config = c from config_after (ofConfig c) requests] at hshows
    rw [show v.config = c.reporting r from config_after (ofConfig (c.reporting r)) requests] at hshows'
    exact ⟨report, report', ⟨hanswer, hshows⟩, hanswer', hshows'⟩

end Service

end Recheck
