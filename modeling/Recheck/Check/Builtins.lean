import Recheck.Check.Symbol
import Recheck.Data.Dict

/-!
# Names that need no declaration

The outermost scope. Apart from `undefined` and the array types, nothing is known of these names but
that they exist.
-/

set_option autoImplicit false

namespace Recheck.Check

def globalValues : List String :=
  ["Array", "Boolean", "Buffer", "Date", "Error", "Infinity", "Intl", "JSON", "Map", "Math", "NaN",
   "Number", "Object", "Promise", "Proxy", "RangeError", "Reflect", "RegExp", "Set", "String", "Symbol",
   "TypeError", "WeakMap", "WeakSet", "__dirname", "__filename", "arguments", "clearInterval",
   "clearTimeout", "console", "decodeURIComponent", "document", "encodeURIComponent", "exports", "fetch",
   "globalThis", "import", "isFinite", "isNaN", "module", "parseFloat", "parseInt", "process",
   "queueMicrotask", "require", "setInterval", "setTimeout", "structuredClone", "window"]

def globalTypes : List String :=
  ["ArrayLike", "AsyncIterable", "Awaited", "Boolean", "Date", "Document", "Element", "Error", "Event",
   "Exclude", "Extract", "Function", "Generator", "HTMLElement", "InstanceType", "Iterable", "Iterator",
   "Map", "NonNullable", "Number", "Object", "Omit", "Parameters", "Partial", "Pick", "Promise",
   "PromiseLike", "PropertyKey", "Readonly", "ReadonlyMap", "ReadonlySet", "Record", "RegExp",
   "Required", "ReturnType", "Set", "String", "Symbol", "WeakMap", "WeakSet", "Window"]

def arrayTypes : List String := ["Array", "ReadonlyArray"]

/-- The values of the outermost scope. -/
def builtinValues : Dict String ValueSymbol :=
  .ofList (globalValues.map (·, .builtin .any) ++ [("undefined", .builtin .undefined)])

/-- The types of the outermost scope. -/
def builtinTypes : Dict String TypeSymbol :=
  .ofList (globalTypes.map (·, .builtin .any) ++ arrayTypes.map (·, .builtin .array))

end Recheck.Check
