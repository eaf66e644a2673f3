/-!
# Faults of a source

Every fault ends the reading of the whole project; there is no partial
catalogue. A fault is a cause with the names and headers it is about, and the
wording is made in one place.
-/

namespace ClassDiagram

/-- Why a project is refused before it is read. -/
inductive InputFault where
  | noFiles
  | missingName
  /-- The file of this name holds nothing but blanks. -/
  | missingText (name : String)
  /-- A fault in the words of the caller. -/
  | stated (message : String)
  deriving DecidableEq, Repr

/-- Why a declaration cannot be understood. -/
inductive SyntaxFault where
  /-- A block that is no declaration of exactly one type, by the text before its
  brace. -/
  | ambiguousDeclaration (header : String)
  /-- A declaration without a name. -/
  | unnamedDeclaration (header : String)
  /-- The header of the type itself has no keyword of a type, or several. -/
  | ambiguousHeader (header : String)
  /-- Only classes can be abstract. -/
  | abstractNonClass (header : String)
  /-- A fault in the words of the caller. -/
  | stated (message : String)
  deriving DecidableEq, Repr

/-- Why a source cannot be read. -/
inductive Fault where
  | invalidInput (fault : InputFault)
  /-- The type of this name is not declared in its own file. -/
  | headerNotFound (name : String)
  /-- The file of this type holds a declaration that cannot be understood. -/
  | classSyntax (name : String) (fault : SyntaxFault)
  deriving DecidableEq, Repr

/-- The wording of an input fault. -/
def InputFault.message : InputFault → String
  | noFiles => "no source files given"
  | missingName => "source file is missing a name"
  | missingText name => "source file `" ++ name ++ "` has no text"
  | stated message => message

/-- The wording of a syntax fault. -/
def SyntaxFault.message : SyntaxFault → String
  | ambiguousDeclaration header =>
    "declaration `" ++ header ++ "` must contain exactly one of class, interface, enum"
  | unnamedDeclaration header => "declaration `" ++ header ++ "` has no name"
  | ambiguousHeader header =>
    "header `" ++ header ++ "` must contain exactly one of class, interface, enum"
  | abstractNonClass header => "header `" ++ header ++ "` combines abstract with a non-class type"
  | stated message => message

namespace Fault

/-- The wording of a fault. -/
def message : Fault → String
  | invalidInput fault => "Invalid input: " ++ fault.message
  | headerNotFound name => "Header not found: type `" ++ name ++ "` is not declared in its own file"
  | classSyntax name fault => "Class syntax error in `" ++ name ++ "`: " ++ fault.message

/-- The short name of the kind of fault. -/
def kind : Fault → String
  | invalidInput _ => "InvalidInput"
  | headerNotFound _ => "HeaderNotFound"
  | classSyntax _ _ => "ClassSyntaxError"

end Fault

end ClassDiagram
