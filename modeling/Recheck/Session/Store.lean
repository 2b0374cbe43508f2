import Recheck.Data.Dict
import Recheck.Program.SourceUnit

/-!
# The store

What is known about files between two cycles, a `FileRecord` for each path, in the order in which the
paths became known. A notification only marks what it touches; the next cycle finds out the rest.

`Store.affected` is the least set of paths that holds a seed and, with a path, all paths that refer to it.
-/

set_option autoImplicit false

namespace Recheck

/-- What is known about one file. -/
structure FileRecord where
  /-- The file as it was read last; `none` until it is read, and after a change. -/
  unit? : Option SourceUnit
  /-- The files that it refers to, each once. -/
  dependencies : List Path
  /-- Whether its changes can show in files that do not refer to it. -/
  globalImpact : Bool
  /-- Whether the host has built it. -/
  built : Bool
  /-- Whether it was linted without a failure since it last changed. -/
  linted : Bool

namespace FileRecord

/-- A file of which only the path is known. -/
def fresh : FileRecord := ⟨none, [], false, false, false⟩

instance : Inhabited FileRecord := ⟨fresh⟩

/-- Forgets all that follows from the text. -/
def reset (r : FileRecord) : FileRecord := { fresh with built := r.built }

end FileRecord

/-- The records of all known files. -/
structure Store where
  records : Dict Path FileRecord
  /-- The files that were read since the last cycle ended. -/
  recentlyAdded : List Path
  /-- The files that referred to one whose record was removed since then. -/
  removedDependents : List Path

namespace Store

def empty : Store := ⟨.empty, [], []⟩

instance : Inhabited Store := ⟨empty⟩

/-- Adds a path to a list unless it is in it. -/
def addTo (paths : List Path) (path : Path) : List Path :=
  if paths.contains path then paths else paths ++ [path]

/-! ## Looking up -/

def record? (s : Store) (path : Path) : Option FileRecord := s.records.get? path

def contains (s : Store) (path : Path) : Bool := s.records.contains path

/-- What holds of the record of a path; a path without a record satisfies nothing. -/
def holds (s : Store) (path : Path) (p : FileRecord → Bool) : Bool := ((s.record? path).map p).getD false

def unit? (s : Store) (path : Path) : Option SourceUnit := (s.record? path).bind (·.unit?)

def hasGlobalImpact (s : Store) (path : Path) : Bool := s.holds path (·.globalImpact)

def isBuilt (s : Store) (path : Path) : Bool := s.holds path (·.built)

def isLinted (s : Store) (path : Path) : Bool := s.holds path (·.linted)

/-! ## Changing records -/

/-- Changes the record of a path, which is made if there is none. -/
def put (s : Store) (path : Path) (change : FileRecord → FileRecord) : Store :=
  { s with records := (s.records.insertNew path .fresh).update path change }

/-- Changes the record of a path, if there is one. -/
def update (s : Store) (path : Path) (change : FileRecord → FileRecord) : Store :=
  { s with records := s.records.update path change }

/-- Notes that a file was read. -/
def recordParsed (s : Store) (path : Path) (unit : SourceUnit) : Store :=
  let s := s.put path fun r => { r with unit? := some unit }
  { s with recentlyAdded := addTo s.recentlyAdded path }

/-- Notes that a file has changed. -/
def invalidate (s : Store) (path : Path) : Store := s.update path .reset

/-- Notes that a file was built, which counts as a change too. -/
def markBuilt (s : Store) (path : Path) : Store := s.put path fun r => { r.reset with built := true }

def markLinted (s : Store) (path : Path) : Store := s.update path fun r => { r with linted := true }

/-- Notes what a file refers to. -/
def updateDependencies (s : Store) (path : Path) (dependencies : List Path) (globalImpact : Bool) : Store :=
  s.update path fun r => { r with dependencies := distinct dependencies, globalImpact := globalImpact }

/-- The paths whose records list a path among their dependencies. -/
def dependents (s : Store) (path : Path) : List Path :=
  (s.records.entries.filter fun (_, r) => r.dependencies.contains path).map (·.1)

/-- Removes the record of a path, and remembers who referred to it. -/
def removeRecord (s : Store) (path : Path) : Store :=
  if s.contains path then
    let rest := { s with
      records := s.records.erase path
      recentlyAdded := s.recentlyAdded.filter fun p => !(p == path) }
    { rest with removedDependents := (rest.dependents path).foldl addTo rest.removedDependents }
  else s

/-- Notes that a file is gone. The declaration beside it goes with it. -/
def remove (s : Store) (path : Path) : Store :=
  (s.removeRecord path).removeRecord path.declarationSibling

/-- Removes the declaration beside a file, and the declaration beside that. -/
def removeDeclarationOf (s : Store) (path : Path) : Store :=
  if s.contains path.declarationSibling then s.remove path.declarationSibling else s

/-- Ends a cycle: nothing counts as new, and files that were not read are forgotten. -/
def cleanup (s : Store) : Store :=
  ⟨s.records.filter (·.unit?.isSome), [], []⟩

/-! ## Sets of paths -/

/-- The files that have to be read. -/
def needingReload (s : Store) : List Path :=
  Path.sortDistinct ((s.records.entries.filter fun (_, r) => r.unit?.isNone).map (·.1))

/-- The files that were read, or lost a file that they referred to, since the last cycle ended. -/
def recent (s : Store) : List Path := Path.sortDistinct (s.recentlyAdded ++ s.removedDependents)

/-- What a record makes worth watching: its own file unless the host builds it, and the files that it
refers to and the host does not build. -/
def watched (s : Store) (path : Path) (r : FileRecord) : List Path :=
  (if path.isTypeDefinition || !r.built then [path] else []) ++ r.dependencies.filter (!s.isBuilt ·)

/-- The files that bear on type checking and that the host does not build itself. -/
def related (s : Store) : List Path :=
  Path.sortDistinct (s.records.entries.flatMap fun (path, r) => s.watched path r)

/-- Follows edges backwards from the paths of a queue, at most `n` paths; `seen` is what was reached
before. -/
def reach (s : Store) : Nat → List Path → List Path → List Path
  | 0, _, seen => seen
  | _, [], seen => seen
  | n + 1, path :: queue, seen =>
    if seen.contains path then reach s n queue seen
    else reach s n (queue ++ s.dependents path) (seen ++ [path])

/-- The number of edges between records and what they refer to. -/
def edgeCount (s : Store) : Nat := (s.records.values.flatMap (·.dependencies)).length

/-- All paths from which a seed can be reached along dependencies, in order. Every path of the queue is a
seed or the end of an edge, so the steps are counted in advance. -/
def affected (s : Store) (seed : List Path) : List Path :=
  Path.sort (s.reach (seed.length + s.edgeCount + 1) seed [])

end Store

end Recheck
