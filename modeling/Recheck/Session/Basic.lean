import Recheck.Config.Project
import Recheck.Lint.Basic
import Recheck.Program.Basic
import Recheck.Session.Store

/-!
# Sessions

A session checks one project again and again. Between two cycles it is told which files were built, changed
or removed; it only marks them in its store, in the canonical spelling of their paths.
-/

set_option autoImplicit false

namespace Recheck

/-- A project with all that is known about it. -/
structure Session where
  project : Project
  /-- How to lint; nothing is linted without it. -/
  lint? : Option LintConfig
  store : Store
  /-- The program of the last cycle. -/
  program? : Option Program
  /-- The files that had diagnostics in the last cycle. -/
  failed : List Path

namespace Session

/-- A session that has not run yet. -/
def ofProject (project : Project) (lint? : Option LintConfig) : Session :=
  ⟨project, lint?, .empty, none, []⟩

/-- What a notification says about a path. -/
inductive Notice where
  | built
  | changed
  | removed
deriving DecidableEq, Repr

/-- What a notification does to the store. A declaration beside a file that was built or changed is taken
to be outdated. -/
def Notice.apply (notice : Notice) (store : Store) (path : Path) : Store :=
  match notice with
  | built => (store.markBuilt path).removeDeclarationOf path
  | changed => (store.invalidate path).removeDeclarationOf path
  | removed => store.remove path

/-- Takes a notification about some paths. -/
def notify (s : Session) (notice : Notice) (paths : List Path) : Session :=
  { s with store := paths.foldl (fun store path => notice.apply store path.normalize) s.store }

/-- The host has built some files. -/
def updateBuilt (s : Session) (files : List Path) : Session := s.notify .built files

/-- Some files have changed, and some are gone. -/
def invalidate (s : Session) (changed removed : List Path) : Session :=
  (s.notify .changed changed).notify .removed removed

/-- The files that the host should watch. -/
def relatedFiles (s : Session) : List Path := s.store.related

end Session

end Recheck
