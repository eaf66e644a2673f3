import ClassDiagram.Identifier

/-!
# The catalogue of types

One entry for each type that the sources declare, with its supertypes by name
and its fields and methods taken apart. An entry of an enum has no members at
all, which is not the same as having empty lists of them.
-/

namespace ClassDiagram

/-- What a declaration introduces. -/
inductive Kind where
  | plainClass
  | abstractClass
  | interface
  | enum
  deriving DecidableEq, Repr

namespace Kind

/-- Classes and abstract classes. -/
def isClassLike : Kind → Bool
  | plainClass | abstractClass => true
  | interface | enum => false

/-- The stereotype above the name of the type. -/
def stereotype? : Kind → Option String
  | plainClass => none
  | abstractClass => some "<<abstract>>"
  | interface => some "<<interface>>"
  | enum => some "<<enum>>"

/-- The kind in words. -/
def display : Kind → String
  | plainClass => "class"
  | abstractClass => "abstract class"
  | interface => "interface"
  | enum => "enum"

/-- The name of the kind in data. -/
def name : Kind → String
  | plainClass => "Class"
  | abstractClass => "AbstractClass"
  | interface => "Interface"
  | enum => "Enum"

/-- All kinds. -/
def all : List Kind := [plainClass, abstractClass, interface, enum]

end Kind

/-- Who may use a member. -/
inductive Access where
  | privateAccess
  | protectedAccess
  | publicAccess
  deriving DecidableEq, Repr

namespace Access

/-- A member without an access keyword is private. -/
instance : Inhabited Access := ⟨privateAccess⟩

/-- The access that a keyword states. -/
def ofKeyword? (word : Text) : Option Access :=
  if word = "private".toList then some privateAccess
  else if word = "protected".toList then some protectedAccess
  else if word = "public".toList then some publicAccess
  else none

/-- The mark in front of a member. -/
def symbol : Access → Char
  | privateAccess => '-'
  | protectedAccess => '#'
  | publicAccess => '+'

/-- The name of the access in data. -/
def name : Access → String
  | privateAccess => "Private"
  | protectedAccess => "Protected"
  | publicAccess => "Public"

/-- All kinds of access. -/
def all : List Access := [privateAccess, protectedAccess, publicAccess]

end Access

/-- A field. -/
structure Variable where
  type : String
  name : String
  value : Option String := none
  access : Access := default
  isStatic : Bool := false
  isFinal : Bool := false
  deriving DecidableEq, Repr

/-- A parameter of a method. -/
structure Parameter where
  type : String
  name : String
  deriving DecidableEq, Repr

/-- A method, or a constructor, which has no type. -/
structure Method where
  type : Option String
  name : String
  access : Access := default
  isStatic : Bool := false
  isFinal : Bool := false
  isAbstract : Bool := false
  isConstructor : Bool := false
  parameters : List Parameter := []
  deriving DecidableEq, Repr

/-- A type of the catalogue. -/
structure Entry where
  id : Identifier
  name : String
  kind : Kind
  /-- The names behind `extends`. -/
  extended : Option (List String) := none
  /-- The names behind `implements`. -/
  implemented : Option (List String) := none
  /-- The type in whose file this one was found. -/
  parent : Option String := none
  fields : Option (List Variable) := none
  methods : Option (List Method) := none
  deriving DecidableEq

/-- The entries of a project, in the order in which they were found. -/
abbrev Catalogue := List Entry

end ClassDiagram
