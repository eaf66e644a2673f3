import ClassDiagram.Catalogue.Braces
import ClassDiagram.Settings

/-!
# Reading a project

A project is a list of source files. Its files are checked first, then read one
after the other, and the declarations found in a file are put at the end of the
queue as files of their own. So the catalogue has the given files in their
order, then what was found in them, then what was found in that.

The queue runs empty, since every file that is read leaves fewer opening braces
in it. That is all the queue needs to know about a reader. The identifier of an
entry is the one that is drawn for its place in the catalogue.
-/

namespace ClassDiagram.Project

/-- A way of reading the file at some place of the catalogue, whose children
together have fewer opening braces than the file. -/
structure Reader where
  read : Nat → SourceFile → Except Fault Reading
  lessens : ∀ {number : Nat} {file : SourceFile} {reading : Reading},
    read number file = .ok reading →
      SourceFile.bracesOf reading.children + 1 ≤ file.braces

/-- The reader that follows the settings and draws identifiers from a supply. -/
def reader (settings : Settings) (supply : Identifier.Supply) : Reader where
  read number file := file.read settings (supply number)
  lessens := SourceFile.braces_children

/-- Read the files of a queue, the first of which is at the place `number`. -/
def readQueue (r : Reader) (number : Nat) : List SourceFile → Except Fault Catalogue
  | [] => .ok []
  | file :: queue =>
    match _h : r.read number file with
    | .error fault => .error fault
    | .ok reading =>
      match readQueue r (number + 1) (queue ++ reading.children) with
      | .error fault => .error fault
      | .ok catalogue => .ok (reading.entry :: catalogue)
termination_by queue => SourceFile.bracesOf queue
decreasing_by
  have := r.lessens _h
  rw [SourceFile.bracesOf_append, SourceFile.bracesOf_cons]
  omega

/-- The first fault of the files on their face. -/
def inputFault? (files : List SourceFile) : Option InputFault :=
  if files.isEmpty then some .noFiles else files.findSome? SourceFile.inputFault?

/-- The catalogue of a project. -/
def catalogue (settings : Settings) (supply : Identifier.Supply) (files : List SourceFile) :
    Except Fault Catalogue :=
  match inputFault? files with
  | some fault => .error (.invalidInput fault)
  | none => readQueue (reader settings supply) 0 files

end ClassDiagram.Project
