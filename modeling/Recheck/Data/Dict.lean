/-!
# Dictionaries that remember their order

A `Dict` is a list of entries with distinct keys, in the order in which the keys were first put in.
Putting a key in again changes its value and leaves it where it is. Keys are compared with `==`, so a
key may be found under another spelling; the entry keeps the first one.
-/

set_option autoImplicit false

namespace Recheck

universe u v w

/-- Entries in the order in which their keys came in. -/
structure Dict (α : Type u) (β : Type v) where
  entries : List (α × β)
deriving Repr

namespace Dict

variable {α : Type u} {β : Type v} [BEq α]

def empty : Dict α β := ⟨[]⟩

instance : Inhabited (Dict α β) := ⟨empty⟩

/-- The value at the first entry with this key. -/
def find : List (α × β) → α → Option β
  | [], _ => none
  | (k, v) :: rest, key => if k == key then some v else find rest key

def get? (d : Dict α β) (key : α) : Option β := find d.entries key

def contains (d : Dict α β) (key : α) : Bool := (d.get? key).isSome

/-- Sets the value of an entry, or adds the entry at the end. -/
def put : List (α × β) → α → β → List (α × β)
  | [], key, value => [(key, value)]
  | (k, v) :: rest, key, value =>
    if k == key then (k, value) :: rest else (k, v) :: put rest key value

def insert (d : Dict α β) (key : α) (value : β) : Dict α β := ⟨put d.entries key value⟩

/-- Adds an entry unless the key has one. -/
def insertNew (d : Dict α β) (key : α) (value : β) : Dict α β :=
  if d.contains key then d else d.insert key value

/-- Changes the value of an entry, if there is one. -/
def update (d : Dict α β) (key : α) (f : β → β) : Dict α β :=
  ⟨d.entries.map fun (k, v) => if k == key then (k, f v) else (k, v)⟩

def erase (d : Dict α β) (key : α) : Dict α β :=
  ⟨d.entries.filter fun (k, _) => !(k == key)⟩

def keys (d : Dict α β) : List α := d.entries.map (·.1)

def values (d : Dict α β) : List β := d.entries.map (·.2)

def size (d : Dict α β) : Nat := d.entries.length

def filter (d : Dict α β) (p : β → Bool) : Dict α β := ⟨d.entries.filter fun (_, v) => p v⟩

/-- The dictionary of some pairs; the last value of a key wins. -/
def ofList (pairs : List (α × β)) : Dict α β :=
  pairs.foldl (fun d (k, v) => d.insert k v) empty

@[simp] theorem get?_empty (key : α) : (empty : Dict α β).get? key = none := rfl

theorem find_put_self [EquivBEq α] (es : List (α × β)) (key : α) (value : β) :
    find (put es key value) key = some value := by
  induction es with
  | nil => simp [put, find]
  | cons e es ih =>
    obtain ⟨k, v⟩ := e
    cases h : k == key <;> simp [put, find, h, ih]

theorem find_put_of_ne [EquivBEq α] (es : List (α × β)) {key other : α} (value : β)
    (hne : (key == other) = false) : find (put es key value) other = find es other := by
  induction es with
  | nil => simp [put, find, hne]
  | cons e es ih =>
    obtain ⟨k, v⟩ := e
    cases h : k == key with
    | false => cases h' : k == other <;> simp [put, find, h, h', ih]
    | true =>
      have : (k == other) = false := by
        cases h' : k == other with
        | false => rfl
        | true =>
          have := BEq.trans (BEq.symm h) h'
          rw [this] at hne
          exact hne
      simp [put, find, h, this]

theorem get?_insert_self [EquivBEq α] (d : Dict α β) (key : α) (value : β) :
    (d.insert key value).get? key = some value := find_put_self ..

theorem get?_insert_of_ne [EquivBEq α] (d : Dict α β) {key other : α} (value : β)
    (h : (key == other) = false) : (d.insert key value).get? other = d.get? other :=
  find_put_of_ne _ _ h

end Dict

/-- A list without the later of two equal members. -/
def distinct {α : Type u} [BEq α] (xs : List α) : List α :=
  xs.foldl (fun out x => if out.contains x then out else out ++ [x]) []

end Recheck
