import GrammarTables.Json.Basic

/-!
# Records in JSON

A record is written as an object with a member per field, or as an array of its fields in order.
-/

namespace GrammarTables.Json

/-- The value of a field among the members of an object: `none` when the field is given twice. -/
def field? (members : List (String × Json)) (name : String) : Option (Option Json) :=
  match members.filter (·.1 = name) with
  | [] => some none
  | [(_, v)] => some (some v)
  | _ => none

/-- What is given for each named field. Other members of an object are passed over, and an array may
leave out its last fields. -/
def fields? (names : List String) : Json → Option (List (Option Json))
  | .object members => names.mapM (field? members)
  | .array vs =>
    if vs.length ≤ names.length then
      some (vs.map some ++ List.replicate (names.length - vs.length) none)
    else none
  | _ => none

/-- A field that has to be given. -/
def required {α : Type} (f : Json → Option α) (given : Option Json) : Option α :=
  given.bind f

/-- A field with a value of its own when it is not given. -/
def optional {α : Type} (default : α) (f : Json → Option α) : Option Json → Option α
  | none => some default
  | some v => f v

/-- A value that may be null. -/
def nullable {α : Type} (f : Json → Option α) : Json → Option (Option α)
  | .null => some none
  | v => (f v).map some

end GrammarTables.Json
