import ClassDiagram.Text.Basic

/-!
# JSON values

A JSON value as it is written: objects keep their members in order and may name
one twice, numbers keep their spelling, and a string is the text that it
denotes, or no text at all if it has an unpaired surrogate.
-/

namespace ClassDiagram.Json

/-- A JSON value. -/
inductive Value where
  | null
  | bool (value : Bool)
  | number (literal : Text)
  | string (content : Option Text)
  | array (items : List Value)
  | object (members : List (Option Text × Value))

namespace Value

/-- A string that denotes a text. -/
def text (s : String) : Value := .string (some s.toList)

/-- The object of the fields that are present. -/
def record (fields : List (String × Option Value)) : Value :=
  .object (fields.filterMap fun (name, value?) => value?.map fun value => (some name.toList, value))

/-- An array of values made from a list. -/
def list (f : α → Value) (items : List α) : Value := .array (items.map f)

/-- A flag that is left out when it is not set. -/
def flag? (set : Bool) : Option Value := if set then some (.bool true) else none

end Value

end ClassDiagram.Json
