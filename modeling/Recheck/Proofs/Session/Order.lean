import Recheck.Proofs.Session.Reports

/-!
# The order of notifications

A session is told about a path at a time, and each notification changes its store at once. In between the
stores differ, but the next cycle comes out the same, as long as no two notifications clash
(`Report.Clashes`): one may not say that the declaration beside the other's file was built or changed, for the
other one drops the record of that declaration.
-/

set_option autoImplicit false

namespace Recheck

namespace Event

/-- What an event tells the session, a path at a time. -/
def reports : Event → List Report
  | .built files => files.map fun path => ⟨.built, path.normalize⟩
  | .invalidated changed removed =>
    changed.map (fun path => ⟨.changed, path.normalize⟩) ++ removed.map fun path => ⟨.removed, path.normalize⟩
  | _ => []

/-- Whether an event is a notification. -/
def IsNotification : Event → Prop
  | .built _ => True
  | .invalidated _ _ => True
  | _ => False

theorem exists_path_of_mem_reports {event : Event} {r : Report} (h : r ∈ event.reports) :
    ∃ path, r.path = Path.normalize path := by
  cases event with
  | write path text => exact nomatch h
  | delete path => exact nomatch h
  | cycle => exact nomatch h
  | built files =>
    obtain ⟨path, _, hr⟩ := List.mem_map.mp h
    exact ⟨path, by rw [← hr]⟩
  | invalidated changed removed =>
    rcases List.mem_append.mp h with h | h
    all_goals
      obtain ⟨path, _, hr⟩ := List.mem_map.mp h
      exact ⟨path, by rw [← hr]⟩

end Event

instance (a b : Report) : Decidable (a.Clashes b) :=
  inferInstanceAs (Decidable (_ ∧ (_ ∨ _ ∧ _ ≠ _) ∨ _ ∧ _ ∧ _ ≠ _))

/-- Sessions that differ in their stores only are told apart by them. -/
theorem Session.with_store {s t u : Session} {a b : Store} (hs : s = { u with store := a })
    (ht : t = { u with store := b }) : { s with store := t.store } = t := by
  subst hs ht
  rfl

theorem Session.store_notify (s : Session) (notice : Session.Notice) (paths : List Path) :
    s.notify notice paths =
      { s with store := Report.applyAll (paths.map fun path => ⟨notice, path.normalize⟩) s.store } := by
  simp only [notify, Report.applyAll, List.foldl_map, Report.apply]

namespace World

variable {w : World}

/-- An event that is no cycle changes the store of the session only, and does so a path at a time. -/
theorem session_step (w : World) {event : Event} (h : event ≠ .cycle) : (w.step event).session =
    { w.session with store := Report.applyAll event.reports w.session.store } := by
  cases event with
  | write path text => rfl
  | delete path => rfl
  | built files => exact Session.store_notify ..
  | invalidated changed removed =>
    show (w.session.notify .changed changed).notify .removed removed = _
    rw [Session.store_notify, Session.store_notify, Event.reports, Report.applyAll, Report.applyAll,
      Report.applyAll, List.foldl_append]
  | cycle => exact absurd rfl h

theorem after_notifications (w : World) {events : List Event} (h : ∀ e ∈ events, e.IsNotification) :
    (w.after events).files = w.files ∧ (w.after events).session =
      { w.session with store := Report.applyAll (events.flatMap Event.reports) w.session.store } := by
  induction events generalizing w with
  | nil => exact ⟨rfl, rfl⟩
  | cons event events ih =>
    obtain ⟨hfiles, hsession⟩ := ih (w.step event) fun e he => h e (List.mem_cons_of_mem _ he)
    have hnotification := h event List.mem_cons_self
    have hstep : (w.step event).files = w.files ∧ event ≠ .cycle := by
      cases event with
      | built files => exact ⟨rfl, by simp⟩
      | invalidated changed removed => exact ⟨rfl, by simp⟩
      | _ => exact absurd hnotification id
    rw [after_cons, hfiles, hsession, hstep.1, session_step w hstep.2, List.flatMap_cons]
    exact ⟨rfl, by rw [Report.applyAll, Report.applyAll, Report.applyAll, List.foldl_append]⟩

/-- **The order of notifications does not matter.** After any history, take some notifications about paths that
are told apart, of which no two clash, in two orders and batchings: the next cycle returns the same, and the same
files are to be watched after it. -/
theorem order_of_notifications (project : Project) (lint? : Option LintConfig) (files : Files)
    (events : List Event) {first second : List Event} (hfirst : ∀ e ∈ first, e.IsNotification)
    (hsecond : ∀ e ∈ second, e.IsNotification)
    (hperm : (first.flatMap Event.reports).Perm (second.flatMap Event.reports))
    (hapart : ((first.flatMap Event.reports).map (·.path)).Nodup)
    (hclash : ∀ a ∈ first.flatMap Event.reports, ∀ b ∈ first.flatMap Event.reports, ¬ a.Clashes b) :
    let w := (World.start project lint? files).after events
    (w.after first).result = (w.after second).result ∧
      (((w.after first).step .cycle).session.relatedFiles ==
        ((w.after second).step .cycle).session.relatedFiles) = true := by
  intro w
  have hs : w.Sound := sound_after project lint? files events
  have hsound : (w.after first).Sound := hs.after first
  have hcanonical : ∀ r ∈ first.flatMap Event.reports, r.path.Canonical := by
    intro r hr
    obtain ⟨event, _, hr⟩ := List.mem_flatMap.mp hr
    obtain ⟨path, hpath⟩ := Event.exists_path_of_mem_reports hr
    rw [hpath]
    exact path.canonical_normalize
  have hstores := Report.applyAll_perm hperm hcanonical hapart hclash hs.session.store.selfFree
    hs.session.store.distinct hs.session.recentlyAdded
  obtain ⟨hfiles, hsession⟩ := w.after_notifications hfirst
  obtain ⟨hfiles', hsession'⟩ := w.after_notifications hsecond
  have hinterchangeable :
      (w.after first).session.store.Interchangeable (w.after second).session.store := by
    rw [hsession, hsession']
    exact hstores
  have hrun := Session.run_interchangeable (Files.finite_toHost w.files) (Files.readable_toHost w.files)
    hsound.session hinterchangeable
  rw [Session.with_store hsession hsession'] at hrun
  unfold result
  rw [session_cycle, session_cycle, hfiles, hfiles']
  exact hrun

/-- A file changes and the declaration beside it is removed, while another file is built; a history in which
all three are known. -/
def withDeclaration : List Event :=
  [.write ⟨"/a.ts"⟩ "import './x.css'", .write ⟨"/x.css.d.ts"⟩ "export \x7b\x7d", .write ⟨"/b.ts"⟩ "export \x7b\x7d",
    .cycle, .delete ⟨"/x.css.d.ts"⟩]

set_option maxRecDepth 100000 in
theorem order_of_notifications_declaration :
    let w := (World.start (.ofRoots ⟨"/p.json"⟩ [⟨"/a.ts"⟩, ⟨"/b.ts"⟩] .standard) none .empty).after withDeclaration
    let first : List Event := [.invalidated [⟨"/x.css"⟩] [⟨"/x.css.d.ts"⟩], .built [⟨"/b.ts"⟩]]
    let second : List Event := [.built [⟨"/b.ts"⟩], .invalidated [] [⟨"/x.css.d.ts"⟩], .invalidated [⟨"/./x.css"⟩] []]
    (w.after first).result.checkedFiles = [⟨"/a.ts"⟩, ⟨"/b.ts"⟩] ∧ (w.after first).result = (w.after second).result := by
  intro w first second
  have hfirst : ∀ e ∈ first, e.IsNotification := by simp [first, Event.IsNotification]
  have hsecond : ∀ e ∈ second, e.IsNotification := by simp [second, Event.IsNotification]
  have hperm : (first.flatMap Event.reports).Perm (second.flatMap Event.reports) := by decide +kernel
  exact ⟨by decide +kernel, (order_of_notifications _ none .empty withDeclaration hfirst hsecond hperm
    (by decide +kernel) (by decide +kernel)).1⟩

/-! ## Notifications that clash -/

/-- A file that left the program keeps its record, and that still lists a declaration which is gone. -/
def staleReferrer : World :=
  (World.start (.ofRoots ⟨"/p.json"⟩ [⟨"/q.ts"⟩] .standard) none .empty).after
    [.write ⟨"/q.ts"⟩ "import './p'", .write ⟨"/p.ts"⟩ "import './x.css';declare global \x7b\x7d",
      .write ⟨"/x.css.d.ts"⟩ "export \x7b\x7d", .cycle, .write ⟨"/q.ts"⟩ "export \x7b\x7d",
      .invalidated [⟨"/q.ts"⟩] [], .delete ⟨"/x.css.d.ts"⟩, .invalidated [] [⟨"/x.css.d.ts"⟩], .cycle]

/-- A declaration, the one beside it, and the one beside that. -/
def declarationChain : World :=
  (World.start (.ofRoots ⟨"/p.json"⟩ [⟨"/x.d.ts"⟩, ⟨"/x.d.ts.d.ts"⟩, ⟨"/x.d.ts.d.ts.d.ts"⟩] .standard) none
    .empty).after
    [.write ⟨"/x.d.ts"⟩ "export \x7b\x7d", .write ⟨"/x.d.ts.d.ts"⟩ "export \x7b\x7d",
      .write ⟨"/x.d.ts.d.ts.d.ts"⟩ "export \x7b\x7d", .cycle]

set_option maxRecDepth 100000 in
/-- A declaration is built and its file changed: told in this order, the second notification drops the record that
the first one made, and its stale referrer has everything checked; told the other way round, nothing is dropped
and nothing checked. Of a chain of declarations the last one is dropped only when the change of the first one is
told while the second one is known. -/
theorem order_matters :
    (let first : List Event := [.built [⟨"/x.css.d.ts"⟩], .invalidated [⟨"/x.css"⟩] []]
     let second : List Event := [.invalidated [⟨"/x.css"⟩] [], .built [⟨"/x.css.d.ts"⟩]]
     ((first.flatMap Event.reports).Perm (second.flatMap Event.reports) ∧
        ((first.flatMap Event.reports).map (·.path)).Nodup) ∧
      ((staleReferrer.after first).result.fullCheck = true ∧
        (staleReferrer.after first).result.checkedFiles = [⟨"/q.ts"⟩]) ∧
      (staleReferrer.after second).result.fullCheck = false ∧
        (staleReferrer.after second).result.checkedFiles = []) ∧
    (let first : List Event := [.invalidated [⟨"/x"⟩, ⟨"/x.d.ts"⟩] []]
     let second : List Event := [.invalidated [⟨"/x.d.ts"⟩, ⟨"/x"⟩] []]
     ((first.flatMap Event.reports).Perm (second.flatMap Event.reports) ∧
        ((first.flatMap Event.reports).map (·.path)).Nodup) ∧
      (declarationChain.after first).result.checkedFiles = [⟨"/x.d.ts"⟩, ⟨"/x.d.ts.d.ts"⟩] ∧
        (declarationChain.after second).result.checkedFiles =
          [⟨"/x.d.ts"⟩, ⟨"/x.d.ts.d.ts"⟩, ⟨"/x.d.ts.d.ts.d.ts"⟩]) := by
  refine ⟨⟨⟨?_, ?_⟩, ⟨?_, ?_⟩, ?_, ?_⟩, ⟨?_, ?_⟩, ?_, ?_⟩ <;> decide +kernel

end World

end Recheck
