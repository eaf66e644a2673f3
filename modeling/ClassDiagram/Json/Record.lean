import ClassDiagram.Identifier
import ClassDiagram.Json.Value

/-!
# Reading records

A record is read from an object or from an array. An object may have any members
beside the fields of the record, but no field twice and no key that denotes no
text. An array holds the fields in their order and may break off early. Each
field is then read on its own: a required one has to be there, an optional one
may be missing or null, and one with a default may only be missing.
-/

namespace ClassDiagram.Json

namespace Value

/-- The text of a string. -/
def asText? : Value → Option String
  | .string (some content) => some (String.ofList content)
  | _ => none

/-- The truth value of a word. -/
def asBool? : Value → Option Bool
  | .bool b => some b
  | _ => none

/-- The items of an array, each read in the same way. -/
def asList? (read : Value → Option α) : Value → Option (List α)
  | .array items => items.mapM read
  | _ => none

/-- An identifier in any of its spellings. -/
def asIdentifier? : Value → Option Identifier
  | .string (some content) => Identifier.ofText? content
  | _ => none

/-- One of several named choices, as its name, or as an object that has the name
as its only key and holds null. -/
def asChoice? (choices : List α) (name : α → String) : Value → Option α
  | .string (some content) => choices.find? fun choice => (name choice).toList == content
  | .object [(some content, .null)] => choices.find? fun choice => (name choice).toList == content
  | _ => none

/-- The member of a key that occurs at most once. The outer `none` stands for a
key that occurs twice. -/
def member? (members : List (Option Text × Value)) (name : String) : Option (Option Value) :=
  match members.filter fun (key, _) => key == some name.toList with
  | [] => some none
  | [(_, value)] => some (some value)
  | _ => none

/-- The fields of a record, in the order of their names. -/
def fields? (names : List String) : Value → Option (List (Option Value))
  | .array items =>
    if items.length ≤ names.length then
      some (items.map some ++ List.replicate (names.length - items.length) none)
    else none
  | .object members =>
    if members.all fun (key, _) => key.isSome then names.mapM (member? members) else none
  | _ => none

end Value

namespace Field

/-- A field that has to be there. -/
def required (read : Value → Option α) (field : Option Value) : Option α := field.bind read

/-- A field that may be missing or null. -/
def optional (read : Value → Option α) : Option Value → Option (Option α)
  | none => some none
  | some .null => some none
  | some value => (read value).map some

/-- A field that may only be missing. -/
def orElse (default : α) (read : Value → Option α) : Option Value → Option α
  | none => some default
  | some value => read value

end Field

end ClassDiagram.Json
