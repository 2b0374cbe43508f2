/-!
# TOML tables

A document is a table: entries with distinct keys. Its values are texts, whole numbers, truth values,
arrays and tables. Dates and numbers with a point are no values here, since nothing that is configured
has one.

Tables come about in three ways, and how a table came about decides what may be added to it later. The
document is therefore built from `Node`s, which remember it, and turned into plain values at the end.
-/

set_option autoImplicit false

namespace Recheck

/-- A value of a document. -/
inductive Toml where
  | string (value : String)
  | integer (value : Int)
  | bool (value : Bool)
  | array (items : List Toml)
  | table (entries : List (String × Toml))
deriving Repr, Inhabited

namespace Toml

/-- How a table came about. -/
inductive Origin where
  /-- By a header of its own. -/
  | header
  /-- By the header of a table inside it. -/
  | implied
  /-- By a key with dots. -/
  | dotted
deriving DecidableEq, Repr

/-- A value of a document that is still being built. -/
inductive Node where
  | value (v : Toml)
  | table (origin : Origin) (entries : List (String × Node))
  /-- The tables of one name, each with a header in double brackets. -/
  | tables (rows : List (List (String × Node)))

/-- The entries of a table that is still being built. -/
abbrev Entries := List (String × Node)

/-- Sets the value of a key that is there already. -/
def Entries.replace (entries : Entries) (key : String) (node : Node) : Entries :=
  entries.map fun (k, n) => if k = key then (k, node) else (k, n)

/-- Applies a change to the table at a path, and makes the tables on the way. The last of the tables of
one name counts. -/
def Entries.alter (change : Entries → Option Entries) : List String → Entries → Option Entries
  | [], entries => change entries
  | key :: path, entries =>
    match entries.lookup key with
    | none => do
      let inner ← alter change path []
      some (entries ++ [(key, .table .implied inner)])
    | some (.table origin inner) => do
      let inner ← alter change path inner
      some (entries.replace key (.table origin inner))
    | some (.tables rows) => do
      let inner ← alter change path (rows.getLast?.getD [])
      some (entries.replace key (.tables (rows.dropLast ++ [inner])))
    | some (.value _) => none

/-- Adds a value under a key with dots. Only tables that keys with dots have made can be added to. -/
def Entries.put (value : Toml) : List String → Entries → Option Entries
  | [], _ => none
  | [key], entries => if (entries.lookup key).isSome then none else some (entries ++ [(key, .value value)])
  | key :: path, entries =>
    match entries.lookup key with
    | none => do
      let inner ← put value path []
      some (entries ++ [(key, .table .dotted inner)])
    | some (.table .dotted inner) => do
      let inner ← put value path inner
      some (entries.replace key (.table .dotted inner))
    | some _ => none

/-- Begins the table of a header. It may have been implied before. -/
def Entries.define (key : String) (entries : Entries) : Option Entries :=
  match entries.lookup key with
  | none => some (entries ++ [(key, .table .header [])])
  | some (.table .implied inner) => some (entries.replace key (.table .header inner))
  | some _ => none

/-- Begins another table of one name. -/
def Entries.addRow (key : String) (entries : Entries) : Option Entries :=
  match entries.lookup key with
  | none => some (entries ++ [(key, .tables [[]])])
  | some (.tables rows) => some (entries.replace key (.tables (rows ++ [[]])))
  | some _ => none

mutual

/-- A finished node as a plain value. -/
def Node.toToml : Node → Toml
  | .value v => v
  | .table _ entries => .table (plain entries)
  | .tables rows => .array (plainRows rows)

/-- Finished entries with plain values. -/
def plain : List (String × Node) → List (String × Toml)
  | [] => []
  | (k, n) :: rest => (k, n.toToml) :: plain rest

def plainRows : List (List (String × Node)) → List Toml
  | [] => []
  | row :: rest => .table (plain row) :: plainRows rest

end

/-! ## Statements -/

/-- What one line of a document says. Paths are not empty. -/
inductive Statement where
  | entry (path : List String) (value : Toml)
  | header (path : List String)
  | rowHeader (path : List String)

/-- The document so far, and the path of the table that entries go to. -/
structure Draft where
  root : Entries
  current : List String

/-- The document with one more line. -/
def Draft.add (d : Draft) : Statement → Option Draft
  | .entry path value => do
    let root ← d.root.alter (Entries.put value path) d.current
    some { d with root := root }
  | .header path => do
    let key ← path.getLast?
    let root ← d.root.alter (Entries.define key) path.dropLast
    some ⟨root, path⟩
  | .rowHeader path => do
    let key ← path.getLast?
    let root ← d.root.alter (Entries.addRow key) path.dropLast
    some ⟨root, path⟩

/-- The entries that some lines make up. -/
def ofStatements (statements : List Statement) : Option (List (String × Toml)) :=
  (statements.foldlM Draft.add ⟨[], []⟩).map fun d => plain d.root

/-- The table that some keys with dots make up. -/
def ofPairs (pairs : List (List String × Toml)) : Option Toml :=
  (pairs.foldlM (fun entries (path, value) => Entries.put value path entries) []).map fun entries =>
    .table (plain entries)

end Toml

end Recheck
