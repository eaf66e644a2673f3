import ClassDiagram.Catalogue.Basic

/-!
# The elements of a diagram

A diagram is made of class boxes and of directed edges between them. A box has
the rows of its name, a stereotype first if there is one, and a compartment of
rows for the fields and one for the methods.
-/

namespace ClassDiagram

/-- One row of a compartment. -/
structure MemberLine where
  isStatic : Bool
  text : String
  deriving DecidableEq, Repr

/-- The shapes of nodes. -/
inductive NodeShape where
  | box
  deriving DecidableEq, Repr

/-- The name of the shape in data. -/
def NodeShape.name : NodeShape → String
  | box => "class"

/-- All shapes of nodes. -/
def NodeShape.all : List NodeShape := [.box]

/-- A class box. -/
structure Node where
  id : Identifier
  shape : NodeShape := .box
  name : List String
  fields : Option (List MemberLine) := none
  methods : Option (List MemberLine) := none
  deriving DecidableEq

namespace Node

/-- The name of the type, which is the last row. -/
def typeName (node : Node) : String := node.name.getLast?.getD ""

/-- The first of several rows. -/
def stereotype? (node : Node) : Option String :=
  if node.name.length > 1 then node.name.head? else none

end Node

/-- The relationships that an edge can stand for. -/
inductive EdgeShape where
  | extension
  | implementation
  | aggregation
  | composition
  | association
  deriving DecidableEq, Repr

namespace EdgeShape

/-- The name of the shape. -/
def name : EdgeShape → String
  | extension => "extends"
  | implementation => "implements"
  | aggregation => "aggregation"
  | composition => "composition"
  | association => "association"

/-- The arrow of the shape. -/
def arrow : EdgeShape → String
  | extension => "--|>"
  | implementation => "..|>"
  | aggregation => "o--"
  | composition => "*--"
  | association => "-->"

/-- All shapes of edges. -/
def all : List EdgeShape := [extension, implementation, aggregation, composition, association]

end EdgeShape

/-- A directed relationship between two nodes. -/
structure Edge where
  shape : EdgeShape
  source : Identifier
  target : Identifier
  deriving DecidableEq

namespace Edge

/-- The same relationship in the other direction. -/
def reversed (edge : Edge) : Edge := ⟨edge.shape, edge.target, edge.source⟩

@[simp] theorem reversed_reversed (edge : Edge) : edge.reversed.reversed = edge := rfl

end Edge

/-- A node or an edge. -/
inductive Element where
  | node (node : Node)
  | edge (edge : Edge)
  deriving DecidableEq

end ClassDiagram
