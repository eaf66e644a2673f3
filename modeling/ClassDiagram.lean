import ClassDiagram.Catalogue.Basic
import ClassDiagram.Catalogue.Braces
import ClassDiagram.Catalogue.File
import ClassDiagram.Catalogue.Project
import ClassDiagram.Catalogue.SourceFile
import ClassDiagram.Command.Arguments
import ClassDiagram.Command.FileTree
import ClassDiagram.Command.Run
import ClassDiagram.Declaration.Body
import ClassDiagram.Declaration.Child
import ClassDiagram.Declaration.Header
import ClassDiagram.Declaration.Keyword
import ClassDiagram.Declaration.Signature
import ClassDiagram.Diagram.Basic
import ClassDiagram.Diagram.Element
import ClassDiagram.Diagram.Layout
import ClassDiagram.Diagram.Preview
import ClassDiagram.Diagram.Relation
import ClassDiagram.Fault
import ClassDiagram.Identifier
import ClassDiagram.Json.Decimal
import ClassDiagram.Json.Model
import ClassDiagram.Json.Reader
import ClassDiagram.Json.Record
import ClassDiagram.Json.Storable
import ClassDiagram.Json.Token
import ClassDiagram.Json.Value
import ClassDiagram.Json.Writer
import ClassDiagram.Literal.Basic
import ClassDiagram.Literal.Search
import ClassDiagram.Literal.Span
import ClassDiagram.Main
import ClassDiagram.Member.Annotation
import ClassDiagram.Member.Decode
import ClassDiagram.Member.Modifier
import ClassDiagram.Member.Parameter
import ClassDiagram.Member.Record
import ClassDiagram.Proofs.Command.Agreement
import ClassDiagram.Proofs.Command.Options
import ClassDiagram.Proofs.Declaration.Annotated
import ClassDiagram.Proofs.Declaration.Block
import ClassDiagram.Proofs.Declaration.Children
import ClassDiagram.Proofs.Declaration.Diversion
import ClassDiagram.Proofs.Declaration.Extent
import ClassDiagram.Proofs.Declaration.FirstRun
import ClassDiagram.Proofs.Declaration.Found
import ClassDiagram.Proofs.Declaration.Front
import ClassDiagram.Proofs.Declaration.Inside
import ClassDiagram.Proofs.Declaration.Leftover
import ClassDiagram.Proofs.Declaration.Listing
import ClassDiagram.Proofs.Declaration.Local
import ClassDiagram.Proofs.Declaration.Mention
import ClassDiagram.Proofs.Declaration.Nested
import ClassDiagram.Proofs.Declaration.Piece
import ClassDiagram.Proofs.Declaration.Place
import ClassDiagram.Proofs.Declaration.Separation
import ClassDiagram.Proofs.Declaration.Signature
import ClassDiagram.Proofs.Declaration.Supertype
import ClassDiagram.Proofs.Declaration.Waiting
import ClassDiagram.Proofs.Diagram.Box
import ClassDiagram.Proofs.Diagram.Building
import ClassDiagram.Proofs.Diagram.Dedupe
import ClassDiagram.Proofs.Diagram.Interface
import ClassDiagram.Proofs.Diagram.Lines
import ClassDiagram.Proofs.Diagram.Mention
import ClassDiagram.Proofs.Diagram.Order
import ClassDiagram.Proofs.Diagram.Run
import ClassDiagram.Proofs.Identifier.Spelling
import ClassDiagram.Proofs.Json.Model
import ClassDiagram.Proofs.Json.Record
import ClassDiagram.Proofs.Json.Token
import ClassDiagram.Proofs.Json.Value
import ClassDiagram.Proofs.Literal.Bare
import ClassDiagram.Proofs.Literal.Byte
import ClassDiagram.Proofs.Literal.Part
import ClassDiagram.Proofs.Literal.Search
import ClassDiagram.Proofs.Literal.Span
import ClassDiagram.Proofs.Member.Annotation
import ClassDiagram.Proofs.Member.Content
import ClassDiagram.Proofs.Member.Current
import ClassDiagram.Proofs.Member.Cut
import ClassDiagram.Proofs.Member.Declarator
import ClassDiagram.Proofs.Member.Decode
import ClassDiagram.Proofs.Member.Ending
import ClassDiagram.Proofs.Member.Field
import ClassDiagram.Proofs.Member.Joined
import ClassDiagram.Proofs.Member.Lead
import ClassDiagram.Proofs.Member.Modifier
import ClassDiagram.Proofs.Member.Operation
import ClassDiagram.Proofs.Member.Parameter
import ClassDiagram.Proofs.Member.Part
import ClassDiagram.Proofs.Member.Piece
import ClassDiagram.Proofs.Member.Position
import ClassDiagram.Proofs.Member.Scan
import ClassDiagram.Proofs.Member.Signature
import ClassDiagram.Proofs.Offset.Annotation
import ClassDiagram.Proofs.Offset.Carve
import ClassDiagram.Proofs.Offset.Comment
import ClassDiagram.Proofs.Offset.Decode
import ClassDiagram.Proofs.Offset.File
import ClassDiagram.Proofs.Offset.Loop
import ClassDiagram.Proofs.Offset.Record
import ClassDiagram.Proofs.Offset.Split
import ClassDiagram.Proofs.Project.Entry
import ClassDiagram.Proofs.Project.Levels
import ClassDiagram.Proofs.Project.Preview
import ClassDiagram.Proofs.Project.Worklist
import ClassDiagram.Proofs.Source.Arrange
import ClassDiagram.Proofs.Source.Assignment
import ClassDiagram.Proofs.Source.Blank
import ClassDiagram.Proofs.Source.Canonical
import ClassDiagram.Proofs.Source.Clause
import ClassDiagram.Proofs.Source.Comment
import ClassDiagram.Proofs.Source.Cut
import ClassDiagram.Proofs.Source.Layout
import ClassDiagram.Proofs.Source.Loss
import ClassDiagram.Proofs.Source.Phrase
import ClassDiagram.Proofs.Source.Split
import ClassDiagram.Proofs.Source.Squeeze
import ClassDiagram.Proofs.Text.Brackets
import ClassDiagram.Proofs.Text.Byte
import ClassDiagram.Proofs.Text.Column
import ClassDiagram.Proofs.Text.Line
import ClassDiagram.Proofs.Text.Slice
import ClassDiagram.Proofs.Text.Word
import ClassDiagram.Proofs.Tree.Basic
import ClassDiagram.Proofs.Tree.Body
import ClassDiagram.Proofs.Tree.Decode
import ClassDiagram.Proofs.Tree.Header
import ClassDiagram.Proofs.Tree.Members
import ClassDiagram.Proofs.Tree.RoundTrip
import ClassDiagram.Proofs.Tree.Spacing
import ClassDiagram.Settings
import ClassDiagram.Source.Comment
import ClassDiagram.Source.Spacing
import ClassDiagram.Text.Basic
import ClassDiagram.Text.Case
import ClassDiagram.Text.Ranges
import ClassDiagram.Text.Width
import ClassDiagram.Text.Width.Classes
import ClassDiagram.Text.Width.Sign
import ClassDiagram.Text.WordChar
