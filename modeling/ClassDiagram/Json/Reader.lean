import ClassDiagram.Json.Token
import ClassDiagram.Json.Value

/-!
# Reading JSON

Tokens are read into a value by a machine with a stack of the arrays and objects
that are still open. Each state says what has to come next, and a token that does
not fit ends the reading. A text is read if its tokens make up exactly one
value.
-/

namespace ClassDiagram.Json

/-- An array or object that is still open. Lists hold their latest entry first. -/
inductive Frame where
  /-- An array that waits for an item. -/
  | items (before : List Value)
  /-- An object that waits for the value of a key. -/
  | member (before : List (Option Text × Value)) (key : Option Text)

/-- What has to come next, inside the open arrays and objects of the stack. -/
inductive State where
  | value (stack : List Frame)
  /-- The first item of an array, or its end. -/
  | firstItem (stack : List Frame)
  /-- The first key of an object, or its end. -/
  | firstKey (stack : List Frame)
  /-- A key behind other members. -/
  | key (before : List (Option Text × Value)) (stack : List Frame)
  /-- The colon behind a key. -/
  | colon (before : List (Option Text × Value)) (key : Option Text) (stack : List Frame)
  /-- What follows a value: a comma or an end, or nothing if nothing is open. -/
  | complete (value : Value) (stack : List Frame)

namespace State

/-- The state after a token that begins a value. -/
def begin? (stack : List Frame) : Token → Option State
  | .null => some (.complete .null stack)
  | .bool b => some (.complete (.bool b) stack)
  | .number literal => some (.complete (.number literal) stack)
  | .string content => some (.complete (.string content) stack)
  | .openArray => some (.firstItem stack)
  | .openObject => some (.firstKey stack)
  | .closeArray | .closeObject | .colon | .comma => none

/-- The state after one more token. -/
def step? : State → Token → Option State
  | .value stack, token => begin? stack token
  | .firstItem stack, .closeArray => some (.complete (.array []) stack)
  | .firstItem stack, token => begin? (.items [] :: stack) token
  | .firstKey stack, .closeObject => some (.complete (.object []) stack)
  | .firstKey stack, .string name => some (.colon [] name stack)
  | .key before stack, .string name => some (.colon before name stack)
  | .colon before name stack, .colon => some (.value (.member before name :: stack))
  | .complete v (.items before :: stack), .comma => some (.value (.items (v :: before) :: stack))
  | .complete v (.items before :: stack), .closeArray =>
    some (.complete (.array (v :: before).reverse) stack)
  | .complete v (.member before name :: stack), .comma => some (.key ((name, v) :: before) stack)
  | .complete v (.member before name :: stack), .closeObject =>
    some (.complete (.object ((name, v) :: before).reverse) stack)
  | _, _ => none

/-- The value that has been read, if nothing is open. -/
def result? : State → Option Value
  | .complete v [] => some v
  | _ => none

end State

/-- The value that tokens make up. -/
def Value.ofTokens? (tokens : List Token) : Option Value := do
  let state ← tokens.foldlM State.step? (.value [])
  state.result?

/-- The value that a text spells. -/
def Value.read? (t : Text) : Option Value := do
  let tokens ← tokens? t
  Value.ofTokens? tokens

end ClassDiagram.Json
