/-!
# Compiler options

The options that change what is checked or which files belong to a program.
-/

set_option autoImplicit false

namespace Recheck

/-- The language version that a project compiles to. -/
inductive ScriptTarget where
  | es3 | es5 | es2015 | es2016 | es2017 | es2018 | es2019 | es2020 | es2021 | es2022 | esNext
deriving DecidableEq, Repr, Inhabited

/-- The module system that a project compiles to. -/
inductive ModuleKind where
  | none | commonJs | amd | umd | system | es2015 | es2020 | es2022 | esNext | node16 | nodeNext
deriving DecidableEq, Repr, Inhabited

/-- Options of a project. Two of the strict checks can be set on their own. -/
structure CompilerOptions where
  target : ScriptTarget
  moduleKind : ModuleKind
  strict : Bool
  noImplicitAny? : Option Bool
  strictNullChecks? : Option Bool
  skipLibCheck : Bool
  allowJs : Bool
deriving DecidableEq, Repr

namespace CompilerOptions

/-- What holds when a project says nothing. -/
def standard : CompilerOptions := ⟨.es5, .commonJs, false, .none, .none, false, false⟩

instance : Inhabited CompilerOptions := ⟨standard⟩

/-- Whether declarations without a type are reported. -/
def noImplicitAny (o : CompilerOptions) : Bool := o.noImplicitAny?.getD o.strict

/-- Whether `null` and `undefined` are types of their own. -/
def strictNullChecks (o : CompilerOptions) : Bool := o.strictNullChecks?.getD o.strict

end CompilerOptions

end Recheck
