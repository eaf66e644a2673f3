import ClassDiagram.Diagram.Basic
import ClassDiagram.Text.Width

/-!
# Text preview

A diagram as plain text: the boxes one below the other with an empty line
between them, and below the boxes one line for each edge. All lines of a box are
equally wide: the names are centred, the members stand on the left, and static
members end in a dollar sign.
-/

namespace ClassDiagram

/-- The characters that boxes are drawn with. -/
inductive BoxStyle where
  | ascii
  | unicode
  deriving DecidableEq, Repr

namespace BoxStyle

/-- The name of the style. -/
def name : BoxStyle → String
  | ascii => "ascii"
  | unicode => "unicode"

/-- The style of a name. -/
def named (given : String) : Except UnknownChoice BoxStyle :=
  chooseByName "box style" [("ascii", ascii), ("unicode", unicode)] given

/-- The two ends of a horizontal rule. -/
structure Ends where
  left : Char
  right : Char

/-- The ends of the rule above a box. -/
def top : BoxStyle → Ends
  | ascii => ⟨'+', '+'⟩
  | unicode => ⟨'┌', '┐'⟩

/-- The ends of a rule between two compartments. -/
def between : BoxStyle → Ends
  | ascii => ⟨'+', '+'⟩
  | unicode => ⟨'├', '┤'⟩

/-- The ends of the rule below a box. -/
def bottom : BoxStyle → Ends
  | ascii => ⟨'+', '+'⟩
  | unicode => ⟨'└', '┘'⟩

/-- The character that rules are made of. -/
def horizontal : BoxStyle → Char
  | ascii => '-'
  | unicode => '─'

/-- The character at both ends of a row. -/
def vertical : BoxStyle → Char
  | ascii => '|'
  | unicode => '│'

/-- A rule around rows of the given width. -/
def rule (style : BoxStyle) (ends : Ends) (columns : Nat) : Text :=
  ends.left :: List.replicate (columns + 2) style.horizontal ++ [ends.right]

/-- A row with a text of full width. -/
def row (style : BoxStyle) (content : Text) : Text :=
  style.vertical :: ' ' :: content ++ [' ', style.vertical]

end BoxStyle

/-- The text of a member in a box. -/
def MemberLine.boxText (line : MemberLine) : Text :=
  line.text.toList ++ if line.isStatic then ['$'] else []

namespace Node

/-- The names on top of a box. -/
def nameTexts (node : Node) : List Text := node.name.map String.toList

/-- The compartments that a node has. -/
def compartments (node : Node) : List (List Text) :=
  (node.fields.toList ++ node.methods.toList).map (·.map MemberLine.boxText)

/-- The width of the widest row. -/
def columns (node : Node) : Nat := Text.maxWidth (node.nameTexts ++ node.compartments.flatten)

/-- The lines of a box. -/
def boxLines (style : BoxStyle) (node : Node) : List Text :=
  [style.rule style.top node.columns] ++
    node.nameTexts.map (fun name => style.row (Text.center name node.columns)) ++
    node.compartments.flatMap (fun lines =>
      style.rule style.between node.columns ::
        lines.map fun line => style.row (Text.padRight line node.columns)) ++
    [style.rule style.bottom node.columns]

end Node

namespace Diagram

/-- The line of an edge, if both of its ends are nodes. -/
def relationLine? (d : Diagram) (edge : Edge) : Option Text := do
  let source ← d.node? edge.source
  let target ← d.node? edge.target
  return (source.typeName ++ " " ++ edge.shape.arrow ++ " " ++ target.typeName).toList

/-- Lines or blocks with a separator between any two. -/
def joined (separator : Text) (texts : List Text) : Text := (texts.intersperse separator).flatten

/-- The preview of a diagram. -/
def preview (style : BoxStyle) (d : Diagram) : Text :=
  let boxes := joined ['\n', '\n'] (d.nodes.map fun node => joined ['\n'] (node.boxLines style))
  let relations := d.edges.filterMap d.relationLine?
  if relations.isEmpty then boxes
  else boxes ++ (if boxes.isEmpty then [] else ['\n', '\n']) ++ joined ['\n'] relations

end Diagram

/-- The preview of a project. -/
def Project.preview (settings : Settings) (supply : Identifier.Supply) (style : BoxStyle)
    (files : List SourceFile) : Except ProjectFault Text :=
  (Project.diagram settings supply files).map (Diagram.preview style)

end ClassDiagram
