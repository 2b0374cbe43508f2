import Recheck.Text.Path
import Recheck.Text.Quoted

/-!
# What can be wrong with a configuration
-/

set_option autoImplicit false

namespace Recheck

/-- Why a configuration cannot be used. -/
inductive ConfigFault where
  /-- The file is missing, or it is no text. -/
  | unreadable (path : Path)
  /-- The text is no JSON; `unfinished` when it ends too early. -/
  | notJson (path : Path) (unfinished : Bool)
  /-- The text is JSON, but no object. -/
  | notObject (path : Path)
  | unknownOption (name : String)
  /-- A value of another kind than the option takes. -/
  | wrongKind (option : String) (expected : String)
  /-- A value that is not among those that the option knows. -/
  | wrongValue (option : String) (allowed : List String)
  /-- The project has no files. -/
  | noInputs (path : Path) (included excluded : List String)
  | invalidPattern (pattern : String)
  /-- The text is no TOML, or not what is configured there. -/
  | notToml (path : Path)
deriving DecidableEq, Repr

namespace ConfigFault

/-- The number under which the fault is known, if it has one. -/
def code? : ConfigFault → Option Nat
  | unreadable _ => some 5083
  | notJson _ true => some 1005
  | notJson _ false => some 5014
  | notObject _ => some 5014
  | unknownOption _ => some 5023
  | wrongKind .. => some 5024
  | wrongValue .. => some 6046
  | noInputs .. => some 18003
  | invalidPattern _ => some 5010
  | notToml _ => none

def message : ConfigFault → String
  | unreadable path => "Cannot read file '" ++ path.text ++ "': no readable text"
  | notJson path unfinished =>
    "Failed to parse file '" ++ path.text ++ "': " ++
      if unfinished then "unexpected end of the text" else "unexpected character"
  | notObject path => "Failed to parse file '" ++ path.text ++ "': expected an object at the top level"
  | unknownOption name => "Unknown compiler option '" ++ name ++ "'."
  | wrongKind option expected =>
    "Compiler option '" ++ option ++ "' requires a value of type " ++ expected ++ "."
  | wrongValue option allowed =>
    "Argument for '--" ++ option ++ "' option must be: " ++
      Chars.intercalate ", " (allowed.map fun name => "'" ++ name ++ "'") ++ "."
  | noInputs path included excluded =>
    "No inputs were found in config file '" ++ path.text ++ "'. Specified 'include' paths were '" ++
      Quoted.list included ++ "' and 'exclude' paths were '" ++ Quoted.list excluded ++ "'."
  | invalidPattern pattern => "Invalid file pattern '" ++ pattern ++ "': brackets do not match"
  | notToml path => "failed to parse '" ++ path.text ++ "': not a valid configuration"

end ConfigFault

end Recheck
