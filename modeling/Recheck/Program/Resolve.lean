import Recheck.Program.Host
import Recheck.Program.Options

/-!
# From specifiers to files

A relative specifier names a file beside the importing one, with its extension left out, or a directory
with an index file. Any other names a package, which is looked for in `node_modules` from the importing
file's directory upwards.
-/

set_option autoImplicit false

namespace Recheck.Resolve

/-- Whether a specifier is a path. -/
def isRelative (specifier : String) : Bool :=
  let cs := specifier.toList
  Chars.startsWith cs ['.', '/'] || Chars.startsWith cs ['.', '.', '/'] || specifier = "." ||
    specifier = ".." || cs.head? = some '/'

/-- The extensions that can be left out, in the order in which they are tried. -/
def extensions (options : CompilerOptions) : List String :=
  [".ts", ".tsx", ".d.ts"] ++ if options.allowJs then [".js", ".jsx"] else []

/-- The text without a tail, if it ends with it. -/
def withoutTail? (text tail : String) : Option String :=
  if tail.toList.isSuffixOf text.toList then
    some (String.ofList (text.toList.take (text.length - tail.length)))
  else none

/-- The path without an extension of the compiled form: `./x.js` in a source means `./x.ts`. -/
def stem (base : Path) : Path :=
  ⟨((withoutTail? base.text ".js").orElse fun _ => withoutTail? base.text ".jsx").getD base.text⟩

/-- The files that a path can stand for, in order. -/
def fileCandidates (base : Path) (options : CompilerOptions) : List Path :=
  (extensions options).map (stem base).append ++ [base.declarationSibling] ++
    if options.allowJs && (stem base).text ≠ base.text then [base] else []

/-- The index files of a directory, in order. -/
def indexCandidates (base : Path) (options : CompilerOptions) : List Path :=
  (extensions options).map fun ext => base.join ⟨"index" ++ ext⟩

/-- The package that holds the types of another: `@a/b` has its types in `@types/a__b`. -/
def typesPackage (specifier : String) : String :=
  match specifier.toList with
  | '@' :: rest =>
    match rest.span (· ≠ '/') with
    | (scope, '/' :: name) => String.ofList scope ++ "__" ++ String.ofList name
    | _ => String.ofList rest
  | _ => specifier

/-- The files that a package can stand for in one directory, in order. -/
def packageCandidates (specifier : String) (dir : Path) : List Path :=
  let modules := dir.join ⟨"node_modules"⟩
  [modules.join ⟨specifier ++ ".d.ts"⟩, (modules.join ⟨specifier⟩).join ⟨"index.d.ts"⟩,
   ((modules.join ⟨"@types"⟩).join ⟨typesPackage specifier⟩).join ⟨"index.d.ts"⟩]

/-- A directory and those above it, at most `n` steps up. -/
def ancestorsWithin : Nat → Path → List Path
  | 0, dir => [dir]
  | n + 1, dir =>
    match dir.parent? with
    | some up => dir :: ancestorsWithin n up
    | none => [dir]

/-- A directory and all above it. -/
def ancestors (dir : Path) : List Path := ancestorsWithin dir.components.length dir

/-- All files that a specifier in a file can stand for, in order. -/
def candidates (specifier : String) (importer : Path) (options : CompilerOptions) : List Path :=
  let dir := importer.parent?.getD ⟨"/"⟩
  if isRelative specifier then
    let base := (dir.join ⟨specifier⟩).normalize
    fileCandidates base options ++ indexCandidates base options
  else (ancestors dir).flatMap (packageCandidates specifier)

/-- The file that a specifier in a file stands for. -/
def resolve (specifier : String) (importer : Path) (options : CompilerOptions) (host : Host) :
    Option Path :=
  (candidates specifier importer options).find? host.isFile

/-- Whether the name of a declared module covers a specifier. A `*` stands for any text. -/
def ambientMatches (pattern specifier : String) : Bool :=
  let cs := specifier.toList
  match pattern.toList.span (· ≠ '*') with
  | (head, _ :: tail) =>
    head.length + tail.length ≤ cs.length && head.isPrefixOf cs && tail.isSuffixOf cs
  | (_, []) => pattern = specifier

end Recheck.Resolve
