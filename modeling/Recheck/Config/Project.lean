import Recheck.Config.Options
import Recheck.Config.Tolerant
import Recheck.Data.Glob
import Recheck.Data.Json.Read
import Recheck.Program.Host

/-!
# Projects

A project is a set of root files and compiler options. A project file names roots one by one, or by
patterns for the files below its directory; the patterns are kept, so that the roots can be looked for
again when files come and go.
-/

set_option autoImplicit false

namespace Recheck

/-- How a project file says what its roots are. -/
structure RootPatterns where
  /-- Roots by name. -/
  files : List Path
  /-- Patterns for further roots, seen from the directory of the project. -/
  included : List Glob
  /-- Patterns for files that are no roots after all. -/
  excluded : List Glob
deriving Repr

/-- A project. Without patterns its roots are fixed. -/
structure Project where
  configPath : Path
  baseDir : Path
  rootNames : List Path
  options : CompilerOptions
  patterns? : Option RootPatterns
deriving Repr

namespace RootPatterns

/-- Whether a file can be a root: a declaration file or a source, and no plain script unless those are
allowed. -/
def isCandidate (options : CompilerOptions) (path : Path) : Bool :=
  path.isTypeDefinition ||
    (path.isSourceModule && (options.allowJs || !(path.endsWith ".js" || path.endsWith ".jsx")))

/-- The directory of installed packages, whose files are never roots. -/
def packageDir : String := "node_modules"

/-- The files of a directory that are not below one of installed packages. -/
def ownFiles (host : Host) (baseDir : Path) : List Path :=
  if baseDir.fileName? = some packageDir then []
  else (host.filesUnder baseDir).filter fun path =>
    ((path.relativeTo? baseDir).map fun inner => !inner.components.contains (.name packageDir)).getD false

/-- Whether the patterns select a path, seen from the directory of the project. -/
def selects (p : RootPatterns) (relative : Path) : Bool :=
  p.included.any (·.isMatch relative.text) && !p.excluded.any (·.isMatch relative.text)

/-- The files that the patterns select. -/
def selected (p : RootPatterns) (host : Host) (baseDir : Path) (options : CompilerOptions) : List Path :=
  ((ownFiles host baseDir).map Path.normalize).filter fun path =>
    isCandidate options path && ((path.relativeTo? baseDir.normalize).map p.selects).getD false

/-- All roots, in order. -/
def roots (p : RootPatterns) (host : Host) (baseDir : Path) (options : CompilerOptions) : List Path :=
  Path.sortDistinct (p.files ++ if p.included.isEmpty then [] else p.selected host baseDir options)

/-! ## Patterns in project files -/

/-- The text without every `./` in front. -/
def trimHere : List Char → List Char
  | '.' :: '/' :: rest => trimHere rest
  | cs => cs

/-- The globs of a pattern. A pattern whose last segment reads like a directory stands for all files below
it too; so does a pattern that excludes. -/
def expand (pattern : String) (excludes : Bool) : List String :=
  let trimmed := Chars.trimEnd (· = '/') (trimHere pattern.toList)
  let last := ((Path.splitSlash trimmed).getLast?).getD []
  let isDirectory := !(last.contains '*' || last.contains '?' || last.contains '.')
  let text := String.ofList trimmed
  if ['*', '*'].isSuffixOf trimmed || isDirectory then [text, text ++ "/**/*"]
  else if excludes then [text, text ++ "/**"]
  else [text]

/-- The globs of some patterns. -/
def globs (patterns : List String) (excludes : Bool) : Except ConfigFault (List Glob) :=
  (patterns.flatMap fun pattern => (expand pattern excludes).map fun glob => (pattern, glob)).mapM
    fun (pattern, glob) =>
      match Glob.parse? glob with
      | some g => .ok g
      | none => .error (.invalidPattern pattern)

end RootPatterns

namespace Project

/-- The directory that a project file stands in. -/
def dirOf (configPath : Path) : Path := configPath.parent?.getD ⟨""⟩

/-- A project with fixed roots. -/
def ofRoots (configPath : Path) (rootNames : List Path) (options : CompilerOptions) : Project :=
  let configPath := configPath.normalize
  ⟨configPath, dirOf configPath, Path.sortDistinct (rootNames.map Path.normalize), options, none⟩

/-- Looks for the roots again. -/
def rescan (p : Project) (host : Host) : Project :=
  match p.patterns? with
  | none => p
  | some patterns => { p with rootNames := patterns.roots host p.baseDir p.options }

def isRoot (p : Project) (path : Path) : Bool := p.rootNames.any (· == path)

/-! ## Project files -/

/-- A member of an object; of several the last one counts. -/
def member? (entries : List (String × Json)) (name : String) : Option Json := entries.reverse.lookup name

/-- The compiler options of a project file. -/
def readOptions (entries : List (String × Json)) : Except ConfigFault CompilerOptions :=
  match member? entries "compilerOptions" with
  | none => .ok .standard
  | some .null => .ok .standard
  | some (.object members) => CompilerOptions.ofMembers members
  | some _ => .error (.wrongKind "compilerOptions" "object")

/-- A list of texts, if the project file has it. -/
def readTexts (entries : List (String × Json)) (name : String) :
    Except ConfigFault (Option (List String)) :=
  match member? entries name with
  | none => .ok none
  | some value =>
    match value.asStrings? with
    | some texts => .ok (some texts)
    | none => .error (.wrongKind name "Array")

/-- The object that a project file is. -/
def readObject (text : String) (path : Path) : Except ConfigFault (List (String × Json)) :=
  match Json.parse (Tolerant.strip text) with
  | .error fault => .error (.notJson path (fault = .unfinished))
  | .ok (.object entries) => .ok entries
  | .ok _ => .error (.notObject path)

/-- Reads the text of a project file. Without a list of files every file below its directory is a root. -/
def ofText (text : String) (path : Path) (host : Host) : Except ConfigFault Project := do
  let path := path.normalize
  let entries ← readObject text path
  let options ← readOptions entries
  let files ← readTexts entries "files"
  let included := (← readTexts entries "include").getD (if files.isSome then [] else ["**/*"])
  let excluded := (← readTexts entries "exclude").getD []
  let baseDir := dirOf path
  let patterns : RootPatterns := {
    files := (files.getD []).map fun file => (baseDir.join ⟨file⟩).normalize
    included := ← RootPatterns.globs included false
    excluded := ← if included.isEmpty then .ok [] else RootPatterns.globs excluded true }
  let roots := patterns.roots host baseDir options
  if roots.isEmpty then .error (.noInputs path included excluded)
  else .ok ⟨path, baseDir, roots, options, some patterns⟩

/-- Reads a project file. -/
def load (path : Path) (host : Host) : Except ConfigFault Project :=
  match host.read? path with
  | some text => ofText text path host
  | none => .error (.unreadable path)

end Project

end Recheck
