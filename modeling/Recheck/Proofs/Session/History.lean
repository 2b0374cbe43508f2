import Recheck.Proofs.Session.Sound

/-!
# Histories

A `World` is a session together with the files in memory that it looks at, and a history is a list of
`Event`s: files are written and deleted, the session is notified, cycles run. The world also keeps what the
statements about a cycle compare with. None of that is read by the session:

* which paths were edited and which were reported since the last cycle,
* which paths referred to a record at the moment at which a notification deleted it,
* what the last cycle returned.

`World.Sound` says that the session's own notes agree with these, and holds in all histories (`sound_after`).
-/

set_option autoImplicit false

namespace Recheck

/-- What can happen between two cycles, and a cycle. -/
inductive Event where
  | write (path : Path) (text : String)
  | delete (path : Path)
  /-- The session is told that files were built. -/
  | built (files : List Path)
  /-- The session is told that files were changed or removed. -/
  | invalidated (changed removed : List Path)
  | cycle

/-- A session, the files that it looks at, and what happened since the last cycle. -/
structure World where
  files : Files
  session : Session
  /-- The canonical paths that were written or deleted. -/
  edited : List Path
  /-- The canonical paths that the session was told about. -/
  reported : List Path
  /-- The paths that referred to a record when it was deleted. -/
  orphaned : List Path
  /-- What the last cycle returned. -/
  last? : Option CycleResult

/-- The paths that referred to one of the records that a list of notifications deletes, at that moment. -/
def Session.Notice.allOrphans (notice : Session.Notice) : Store → List Path → List Path
  | _, [] => []
  | store, path :: paths =>
    notice.orphans store path.normalize ++ notice.allOrphans (notice.apply store path.normalize) paths

namespace World

/-- A new session among some files. -/
def start (project : Project) (lint? : Option LintConfig) (files : Files) : World :=
  ⟨files, .ofProject project lint?, [], [], [], none⟩

/-- Notifies the session about some paths. -/
def tell (w : World) (notice : Session.Notice) (paths : List Path) : World :=
  { w with
    session := w.session.notify notice paths
    reported := w.reported ++ paths.map Path.normalize
    orphaned := w.orphaned ++ notice.allOrphans w.session.store paths }

def step (w : World) : Event → World
  | .write path text =>
    { w with files := w.files.write path text, edited := w.edited ++ [path.normalize] }
  | .delete path => { w with files := w.files.remove path, edited := w.edited ++ [path.normalize] }
  | .built files => w.tell .built files
  | .invalidated changed removed => (w.tell .changed changed).tell .removed removed
  | .cycle =>
    let run := w.session.run w.files.toHost
    ⟨w.files, run.2, [], [], [], some run.1⟩

/-- What a history makes of a world. -/
def after (w : World) (events : List Event) : World := events.foldl step w

theorem after_cons (w : World) (event : Event) (events : List Event) :
    w.after (event :: events) = (w.step event).after events := rfl

theorem after_append (w : World) (before events : List Event) :
    w.after (before ++ events) = (w.after before).after events := List.foldl_append

theorem session_cycle (w : World) : (w.step .cycle).session = (w.session.run w.files.toHost).2 := rfl

/-! ## The next cycle -/

section Next

variable (w : World)

/-- What the next cycle returns. -/
def result : CycleResult := (w.session.run w.files.toHost).1

/-- The program that the next cycle builds. -/
def program : Program := w.session.nextProgram w.files.toHost

/-- The store of the next cycle once it has noted the dependencies. -/
def noted : Store := w.session.noted w.files.toHost

/-- The files that failed in the last cycle. -/
def failing : List Path := (w.last?.map (·.failing)).getD []

/-- The paths that the session knows and has no unit for. -/
def unread : List Path :=
  (w.session.store.records.entries.filter fun (_, r) => r.unit?.isNone).map (·.1)

/-- The build of the next cycle, with the list of the texts that it reads. -/
def buildTraced : (Program × Store) × List Path :=
  Session.buildTraced (w.session.project.rescan w.files.toHost) w.files.toHost w.session.store
    w.session.program?

/-- The paths whose text the next cycle reads. -/
def reads : List Path := w.buildTraced.2

/-- The paths that the next cycle parses: of those that it reads, the ones that have a text. -/
def parsed : List Path := w.reads.filter w.files.contains

/-- The paths from which changes spread in the next cycle. -/
def seeds : List Path := w.unread ++ w.parsed ++ w.orphaned ++ w.failing

end Next

/-! ## The invariant -/

/-- The session is sound, and its notes agree with what happened. -/
structure Sound (w : World) : Prop where
  session : w.session.Sound
  orphaned : ∀ p, w.session.store.removedDependents.contains p = w.orphaned.contains p
  failed : w.session.failed = w.failing

variable {w : World}

theorem Sound.start (project : Project) (lint? : Option LintConfig) (files : Files) :
    (start project lint? files).Sound where
  session := Session.Sound.ofProject project lint?
  orphaned := fun _ => rfl
  failed := rfl

theorem contains_removedDependents_notify (notice : Session.Notice) (paths : List Path) {s : Session}
    (h : s.store.SelfFree) (p : Path) :
    (s.notify notice paths).store.removedDependents.contains p =
      (s.store.removedDependents.contains p || (notice.allOrphans s.store paths).contains p) := by
  induction paths generalizing s with
  | nil => exact (Bool.or_false _).symm
  | cons q paths ih =>
    have hrest := ih (s := { s with store := notice.apply s.store q.normalize }) (h.notice notice _)
    rw [Session.Notice.allOrphans, List.contains_append, ← Bool.or_assoc,
      ← Store.contains_removedDependents_notice h]
    exact hrest

theorem Sound.tell (h : w.Sound) (notice : Session.Notice) (paths : List Path) :
    (w.tell notice paths).Sound where
  session := h.session.notify notice paths
  orphaned p := by
    show (w.session.notify notice paths).store.removedDependents.contains p =
      (w.orphaned ++ notice.allOrphans w.session.store paths).contains p
    rw [contains_removedDependents_notify notice paths h.session.store.selfFree, List.contains_append,
      h.orphaned]
  failed := h.failed

theorem Sound.step (h : w.Sound) (event : Event) : (w.step event).Sound := by
  cases event with
  | write path text => exact ⟨h.session, h.orphaned, h.failed⟩
  | delete path => exact ⟨h.session, h.orphaned, h.failed⟩
  | built files => exact h.tell .built files
  | invalidated changed removed => exact (h.tell .changed changed).tell .removed removed
  | cycle =>
    have hhost := Files.finite_toHost w.files
    refine ⟨h.session.run hhost, fun p => ?_, h.session.failed_run hhost (Files.readable_toHost w.files)⟩
    rw [session_cycle, Session.store_run]
    rfl

theorem Sound.after (h : w.Sound) (events : List Event) : (w.after events).Sound := by
  induction events generalizing w with
  | nil => exact h
  | cons event events ih => exact ih (h.step event)

/-- **The invariant holds in all histories.** -/
theorem sound_after (project : Project) (lint? : Option LintConfig) (files : Files) (events : List Event) :
    ((World.start project lint? files).after events).Sound :=
  (Sound.start project lint? files).after events

end World

end Recheck
