import Recheck.Data.Json.Basic

/-!
# Records and variants in JSON

A record is an object with a member for each field, or an array with the fields in order. A tagged
variant is an object in which one member names the variant, or an array that begins with that name; what
is left is its record.
-/

set_option autoImplicit false

namespace Recheck.Json

/-- The values of a member, at most one of which there may be. -/
def member? (entries : List (String × Json)) (name : String) : Option (Option Json) :=
  match entries.filter (·.1 = name) with
  | [] => some none
  | [(_, value)] => some (some value)
  | _ => none

/-- The fields of a record, in the order of their names; a field that is missing is `none`. A field
that comes twice is refused, and so are more items than fields. Members of other names do not count. -/
def record? (names : List String) : Json → Option (List (Option Json))
  | object entries => names.mapM (member? entries)
  | array items =>
    if items.length ≤ names.length then
      some (items.map some ++ List.replicate (names.length - items.length) none)
    else none
  | _ => none

/-- The fields of a record that may have no other members. -/
def closedRecord? (names : List String) (j : Json) : Option (List (Option Json)) :=
  match j with
  | object entries => if entries.all fun e => names.contains e.1 then j.record? names else none
  | _ => j.record? names

/-- The name of a variant, and the record that is left when the tag is taken away. -/
def tagged? (tag : String) : Json → Option (Json × Json)
  | object entries => do
    let name ← (← member? entries tag)
    pure (name, object (entries.filter (·.1 ≠ tag)))
  | array (name :: rest) => some (name, array rest)
  | _ => none

/-- A field with a value of its own when it is missing. -/
def fieldOr {α : Type} (standard : α) (decode : Json → Option α) : Option Json → Option α
  | some j => decode j
  | none => some standard

/-- A field that must be there. -/
def field? {α : Type} (decode : Json → Option α) (j : Option Json) : Option α := j.bind decode

/-- A value that may be `null`. -/
def nullable {α : Type} (decode : Json → Option α) : Json → Option (Option α)
  | null => some none
  | j => (decode j).map some

/-- A field that may be missing or `null`. -/
def optional {α : Type} (decode : Json → Option α) (j : Option Json) : Option (Option α) :=
  fieldOr none (nullable decode) j

/-- A choice among names: the name, or an object that has `null` under it. -/
def choice? {α : Type} (ofName? : String → Option α) : Json → Option α
  | string name => ofName? name
  | object [(name, null)] => ofName? name
  | _ => none

/-- A choice among names inside a tagged variant, where an empty object says as little as `null`. -/
def choiceWithin? {α : Type} (ofName? : String → Option α) : Json → Option α
  | object [(name, object [])] => ofName? name
  | j => j.choice? ofName?

/-- An object without the members that say nothing. -/
def ofMembers (members : List (String × Option Json)) : Json :=
  object (members.filterMap fun (name, value) => value.map fun v => (name, v))

end Recheck.Json
