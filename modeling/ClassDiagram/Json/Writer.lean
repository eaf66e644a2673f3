import ClassDiagram.Identifier
import ClassDiagram.Json.Value

/-!
# Writing JSON

A value is written on one line without blanks, or over several lines with two
spaces for each level of nesting. Both forms write the same marks, strings and
literals in the same order, and differ in the blanks between them alone.
-/

namespace ClassDiagram.Json

/-- A character inside a string. Quotes, backslashes and controls are escaped. -/
def escape (c : Char) : Text :=
  match c with
  | '"' => ['\\', '"']
  | '\\' => ['\\', '\\']
  | '\n' => ['\\', 'n']
  | '\r' => ['\\', 'r']
  | '\t' => ['\\', 't']
  | '\x08' => ['\\', 'b']
  | '\x0c' => ['\\', 'f']
  | c => if c.toNat < 0x20 then '\\' :: 'u' :: Identifier.hexDigits 4 c.toNat else [c]

/-- A string. One that denotes no text is written as a lone surrogate. -/
def writeString : Option Text → Text
  | some content => '"' :: content.flatMap escape ++ ['"']
  | none => "\"\\ud800\"".toList

/-- How a value is laid out: on one line, or over several lines with the value at
some level of nesting. -/
inductive Layout where
  | compact
  | pretty (level : Nat)
  deriving DecidableEq, Repr

namespace Layout

/-- The layout of what is nested in the value. -/
def nested : Layout → Layout
  | compact => compact
  | pretty level => pretty (level + 1)

/-- What parts the items of the value. -/
def lineBreak : Layout → Text
  | compact => []
  | pretty level => '\n' :: List.replicate (2 * level) ' '

/-- What parts a key from its value. -/
def colon : Layout → Text
  | compact => [':']
  | pretty _ => [':', ' ']

end Layout

mutual

/-- A value in a layout. -/
def Value.write (layout : Layout) : Value → Text
  | .null => "null".toList
  | .bool true => "true".toList
  | .bool false => "false".toList
  | .number literal => literal
  | .string content => writeString content
  | .array [] => ['[', ']']
  | .array (item :: items) =>
    '[' :: layout.nested.lineBreak ++ item.write layout.nested ++
      writeItems layout.nested items ++ layout.lineBreak ++ [']']
  | .object [] => ['{', '}']
  | .object ((key, value) :: members) =>
    '{' :: layout.nested.lineBreak ++ writeString key ++ layout.colon ++
      value.write layout.nested ++ writeMembers layout.nested members ++ layout.lineBreak ++ ['}']

/-- The items behind the first one. -/
def writeItems (layout : Layout) : List Value → Text
  | [] => []
  | item :: items => ',' :: layout.lineBreak ++ item.write layout ++ writeItems layout items

/-- The members behind the first one. -/
def writeMembers (layout : Layout) : List (Option Text × Value) → Text
  | [] => []
  | (key, value) :: members =>
    ',' :: layout.lineBreak ++ writeString key ++ layout.colon ++ value.write layout ++
      writeMembers layout members

end

/-- A value on one line. -/
def Value.compact (v : Value) : Text := v.write .compact

/-- A value over several lines. -/
def Value.pretty (v : Value) : Text := v.write (.pretty 0)

end ClassDiagram.Json
