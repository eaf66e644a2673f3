import ClassDiagram.Catalogue.SourceFile
import ClassDiagram.Declaration.Body
import ClassDiagram.Declaration.Child
import ClassDiagram.Declaration.Header
import ClassDiagram.Declaration.Signature
import ClassDiagram.Member.Decode
import ClassDiagram.Source.Spacing

/-!
# Reading a source file

The dense text of a file is cut at the header of its type into what stands
before it, the header, the body, and what stands behind the body. The header and
the body give the catalogue entry. The nested declarations of the body, between
the texts before and behind the type, give the files of other types.
-/

namespace ClassDiagram

open Declaration

/-- The body that the brace of a header opens. Literals are those of the whole
text. -/
def Declaration.Header.body (h : Header) : Body :=
  Body.ofGlyphs (h.source.glyphs.drop (h.before.length + h.run.length + 1))

/-- The text of all declarations beside the type itself: what stands before the
header, the nested declarations of the body, and what stands behind it. -/
def Declaration.Header.leftover (h : Header) : Text :=
  h.lead ++ h.body.nested.flatten ++ (h.body.behind.map Glyph.chars).getD []

/-- What a source file gives: its entry and the files of the declarations found
beside and inside its type. -/
structure Reading where
  entry : Entry
  children : List SourceFile
  deriving DecidableEq

namespace SourceFile

/-- The catalogue entry of a type from its signature and the text of its
members. -/
def entry (settings : Settings) (id : Identifier) (file : SourceFile) (signature : Signature)
    (members : Text) : Entry :=
  let records := Member.records members
  let hasMembers := signature.kind != .enum
  { id
    name := file.name
    kind := signature.kind
    extended := signature.extended.map (·.map String.ofList)
    implemented := signature.implemented.map (·.map String.ofList)
    parent := file.parent
    fields :=
      if hasMembers then some (Member.allFields settings.decoding records) else none
    methods :=
      if hasMembers then some (Member.allMethods settings.decoding file.name.toList records)
      else none }

/-- Read a file. The header has to be there and to be understood, and so have all
declarations beside it. -/
def read (settings : Settings) (id : Identifier) (file : SourceFile) : Except Fault Reading :=
  match Header.locate? (Source.dense file.text.toList) file.name.toList with
  | none => .error (.headerNotFound file.name)
  | some header =>
    match Signature.ofHeader header.text with
    | .error fault => .error (.classSyntax file.name fault)
    | .ok signature =>
      match Declaration.children file.name header.leftover with
      | .error fault => .error fault
      | .ok children => .ok ⟨file.entry settings id signature header.body.members, children⟩

end SourceFile

end ClassDiagram
