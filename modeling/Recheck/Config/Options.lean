import Recheck.Config.Fault
import Recheck.Data.Json.Basic
import Recheck.Program.Options

/-!
# Compiler options in project files

Options are looked at in the order of their names, so of two faults the one with the smaller name counts.
Upper and lower case do not matter in names.
-/

set_option autoImplicit false

namespace Recheck

/-- The names of language versions. -/
def ScriptTarget.names : List (String × ScriptTarget) :=
  [("es3", .es3), ("es5", .es5), ("es6", .es2015), ("es2015", .es2015), ("es2016", .es2016),
   ("es2017", .es2017), ("es2018", .es2018), ("es2019", .es2019), ("es2020", .es2020), ("es2021", .es2021),
   ("es2022", .es2022), ("esnext", .esNext)]

/-- The names of module systems. -/
def ModuleKind.names : List (String × ModuleKind) :=
  [("none", .none), ("commonjs", .commonJs), ("amd", .amd), ("umd", .umd), ("system", .system),
   ("es6", .es2015), ("es2015", .es2015), ("es2020", .es2020), ("es2022", .es2022), ("esnext", .esNext),
   ("node16", .node16), ("nodenext", .nodeNext)]

namespace CompilerOptions

/-- Options that change nothing here. -/
def inert : List String :=
  ["allowsyntheticdefaultimports", "baseurl", "composite", "declaration", "declarationmap",
   "emitdecoratormetadata", "esmoduleinterop", "experimentaldecorators", "forceconsistentcasinginfilenames",
   "importhelpers", "incremental", "isolatedmodules", "jsx", "lib", "moduleresolution", "noemit",
   "noemitonerror", "nofallthroughcasesinswitch", "noimplicitreturns", "nounusedlocals",
   "nounusedparameters", "outdir", "paths", "removecomments", "resolvejsonmodule", "rootdir", "sourcemap",
   "tsbuildinfofile", "typeroots", "types", "usedefineforclassfields"]

/-- The letters A to Z in lower case, and all else as it is. -/
def lowercase (s : String) : String := String.ofList (s.toList.map Char.toLower)

/-- The value of an option that is on or off. -/
def switch (name : String) (value : Json) : Except ConfigFault Bool :=
  match value.asBool? with
  | some b => .ok b
  | none => .error (.wrongKind name "boolean")

/-- The value of an option with names for its values. -/
def named {α : Type} (names : List (String × α)) (name : String) (value : Json) : Except ConfigFault α :=
  match value.asString? with
  | none => .error (.wrongKind name "string")
  | some text =>
    match names.lookup (lowercase text) with
    | some v => .ok v
    | none => .error (.wrongValue name (names.map (·.1)))

/-- Sets one option. -/
def set (options : CompilerOptions) (name : String) (value : Json) : Except ConfigFault CompilerOptions :=
  match lowercase name with
  | "target" => (named ScriptTarget.names name value).map fun v => { options with target := v }
  | "module" => (named ModuleKind.names name value).map fun v => { options with moduleKind := v }
  | "strict" => (switch name value).map fun b => { options with strict := b }
  | "noimplicitany" => (switch name value).map fun b => { options with noImplicitAny? := some b }
  | "strictnullchecks" => (switch name value).map fun b => { options with strictNullChecks? := some b }
  | "skiplibcheck" => (switch name value).map fun b => { options with skipLibCheck := b }
  | "allowjs" => (switch name value).map fun b => { options with allowJs := b }
  | other => if inert.contains other then .ok options else .error (.unknownOption name)

/-- The members of an object in the order of their names; of several members of one name the last counts. -/
def sortedMembers (entries : List (String × Json)) : List (String × Json) :=
  let names := (entries.map (·.1)).eraseDups.mergeSort (fun a b => !(b < a))
  names.filterMap fun name => (entries.reverse.lookup name).map fun value => (name, value)

/-- The options of an object. -/
def ofMembers (entries : List (String × Json)) : Except ConfigFault CompilerOptions :=
  (sortedMembers entries).foldlM (fun options (name, value) => options.set name value) standard

end CompilerOptions

end Recheck
