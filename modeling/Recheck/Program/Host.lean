import Recheck.Data.Dict
import Recheck.Text.Path

/-!
# Where files come from

A host answers questions about files. `Files` is the host that lives in memory; a directory on disk is
another one.
-/

set_option autoImplicit false

namespace Recheck

/-- A source of files. A file may exist and still have no readable text. `filesUnder` lists the files of a
directory and of the directories in it. No more than `capacity` paths lead to files. -/
structure Host where
  read? : Path → Option String
  isFile : Path → Bool
  filesUnder : Path → List Path
  capacity : Nat

/-- Files in memory, by canonical path. -/
abbrev Files := Dict Path String

namespace Files

def write (files : Files) (path : Path) (text : String) : Files := files.insert path.normalize text

def remove (files : Files) (path : Path) : Files := files.erase path.normalize

/-- All paths, in order. -/
def paths (files : Files) : List Path := Path.sort files.keys

def toHost (files : Files) : Host where
  read? path := files.get? path
  isFile path := files.contains path
  filesUnder dir := files.paths.filter fun path => (path.relativeTo? dir).isSome
  capacity := files.size

end Files

end Recheck
