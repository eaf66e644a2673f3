import ClassDiagram.Fault
import ClassDiagram.Text.Basic

/-!
# Source files

A source file is a text together with the name of the type that it declares.
Declarations found inside a file become files of their own, with that type as
their parent.
-/

namespace ClassDiagram

/-- A text and the name of the type that it declares. -/
structure SourceFile where
  name : String
  text : String
  parent : Option String := none
  deriving DecidableEq, Repr

namespace SourceFile

/-- What is wrong with a file on its face: a blank name, or else a blank text. -/
def inputFault? (file : SourceFile) : Option InputFault :=
  if Text.isBlankText file.name.toList then some .missingName
  else if Text.isBlankText file.text.toList then some (.missingText file.name)
  else none

end SourceFile

end ClassDiagram
