import ClassDiagram.Json.Decimal
import ClassDiagram.Json.Value

/-!
# Storable values

A value that is kept for a second reading has bounds: its numbers are finite as
64-bit binary floating-point numbers, its strings denote texts, and its arrays and
objects nest less than 128 deep.
-/

namespace ClassDiagram.Json

namespace Value

/-- How deep arrays and objects of a storable value may nest. -/
def maxDepth : Nat := 127

mutual

/-- True if a value can be kept with `room` levels of nesting left. -/
def isStorable (room : Nat) : Value → Bool
  | .null => true
  | .bool _ => true
  | .number literal => (Decimal.ofLiteral literal).isFinite
  | .string content => content.isSome
  | .array items => 0 < room && areStorable (room - 1) items
  | .object members => 0 < room && areStorableMembers (room - 1) members

/-- True if all items can be kept. -/
def areStorable (room : Nat) : List Value → Bool
  | [] => true
  | item :: items => item.isStorable room && areStorable room items

/-- True if all members can be kept. -/
def areStorableMembers (room : Nat) : List (Option Text × Value) → Bool
  | [] => true
  | (key, value) :: members =>
    key.isSome && value.isStorable room && areStorableMembers room members

end

end Value

end ClassDiagram.Json
