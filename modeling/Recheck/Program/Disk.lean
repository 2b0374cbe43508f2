import Recheck.Program.Host

/-!
# Files on disk

A tree of directories with a working directory in it. A path is followed step by step from the root or
from the working directory, and every step but the last has to lead to a directory, also in front of `..`.
-/

set_option autoImplicit false

namespace Recheck

/-- A file or a directory. The content of a file is `none` when its bytes are no text. -/
inductive DiskNode where
  | file (content : Option String)
  | directory (entries : List (String × DiskNode))

namespace DiskNode

instance : Inhabited DiskNode := ⟨directory []⟩

def isDirectory : DiskNode → Bool
  | file _ => false
  | directory _ => true

/-- What the names lead to, one directory after the other. -/
def find? (node : DiskNode) : List String → Option DiskNode
  | [] => some node
  | name :: rest =>
    match node with
    | file _ => none
    | directory entries =>
      match entries.lookup name with
      | some inner => find? inner rest
      | none => none

/-- Sets what a name stands for. -/
def setEntry (entries : List (String × DiskNode)) (name : String) (node : DiskNode) :
    List (String × DiskNode) :=
  if (entries.lookup name).isSome then
    entries.map fun (n, old) => if n = name then (n, node) else (n, old)
  else entries ++ [(name, node)]

/-- Puts a node at some names and makes the directories on the way. -/
def put (new : DiskNode) : List String → DiskNode → DiskNode
  | [], _ => new
  | name :: rest, node =>
    let entries := match node with
      | file _ => []
      | directory entries => entries
    directory (setEntry entries name (put new rest ((entries.lookup name).getD default)))

/-- Takes away what some names lead to. -/
def erase : List String → DiskNode → DiskNode
  | [], node => node
  | _ :: _, file content => file content
  | [name], directory entries => directory (entries.filter (·.1 ≠ name))
  | name :: rest, directory entries =>
    directory (entries.map fun (n, inner) => if n = name then (n, erase rest inner) else (n, inner))

mutual

/-- The names that lead to the files of a node. -/
def fileNames : DiskNode → List (List String)
  | file _ => [[]]
  | directory entries => entryNames entries

def entryNames : List (String × DiskNode) → List (List String)
  | [] => []
  | (name, node) :: rest => (fileNames node).map (name :: ·) ++ entryNames rest

end

end DiskNode

/-- A tree of files, and where in it one works. -/
structure Disk where
  root : DiskNode
  /-- The names from the root to the working directory. -/
  cwd : List String

namespace Disk

/-- An empty working directory at some names. -/
def empty (cwd : List String) : Disk := ⟨DiskNode.put (.directory []) cwd default, cwd⟩

instance : Inhabited Disk := ⟨empty []⟩

def isDirectoryAt (d : Disk) (names : List String) : Bool :=
  ((d.root.find? names).map (·.isDirectory)).getD false

/-- One step from a directory. -/
def step (d : Disk) (names : List String) (c : Path.Component) : Option (List String) :=
  if d.isDirectoryAt names then
    match c with
    | .root => some []
    | .here => some names
    | .parent => some names.dropLast
    | .name s => some (names ++ [s])
  else none

/-- No path is longer than this many bytes. -/
def maxPathLength : Nat := 4095

/-- The names from the root to what a path leads to. -/
def locate (d : Disk) (path : Path) : Option (List String) :=
  if path.text = "" || maxPathLength < path.text.utf8ByteSize then none
  else path.components.foldlM d.step d.cwd

/-- What a path leads to. A path with a slash or a dot at its end leads to directories only. -/
def node? (d : Disk) (path : Path) : Option DiskNode := do
  let node ← d.root.find? (← d.locate path)
  if (path.endsWith "/" || path.endsWith "/.") && !node.isDirectory then none else some node

def isFile (d : Disk) (path : Path) : Bool := ((d.node? path).map (!·.isDirectory)).getD false

/-- The text of a file. -/
def read? (d : Disk) (path : Path) : Option String := do
  match ← d.node? path with
  | .file content => content
  | .directory _ => none

/-- The files of a directory and of the directories in it, each below the path that was asked for. -/
def filesUnder (d : Disk) (path : Path) : List Path :=
  match d.node? path with
  | some node => node.fileNames.map fun names => names.foldl (fun p name => p.join ⟨name⟩) path
  | none => []

/-- The names that a path stands for when nothing is looked up. -/
def namesOf (d : Disk) (path : Path) : List String :=
  path.components.foldl (fun names c =>
    match c with
    | .root => []
    | .here => names
    | .parent => names.dropLast
    | .name s => names ++ [s]) d.cwd

/-- Writes a file, and makes the directories on the way. -/
def write (d : Disk) (path : Path) (content : Option String) : Disk :=
  { d with root := DiskNode.put (.file content) (d.namesOf path) d.root }

def remove (d : Disk) (path : Path) : Disk :=
  { d with root := DiskNode.erase (d.namesOf path) d.root }

/-- The working directory as a path. -/
def cwdPath (d : Disk) : Path := ⟨"/" ++ Chars.intercalate "/" d.cwd⟩

/-- The disk with another working directory, seen from the present one. -/
def enter (d : Disk) (path : Path) : Disk := { d with cwd := d.namesOf path }

/-- The disk as a source of files. Paths are short, so they are not too many. -/
def toHost (d : Disk) : Host where
  read? := d.read?
  isFile := d.isFile
  filesUnder := d.filesUnder
  capacity := Nat.pow 257 (maxPathLength + 1)

end Disk

end Recheck
