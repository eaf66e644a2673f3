import ClassDiagram.Catalogue.SourceFile
import ClassDiagram.Declaration.Keyword
import ClassDiagram.Literal.Basic

/-!
# Declarations beside a type

The text around a type and the declarations nested in it are cut into blocks.
Each block reaches from the end of the block or statement before it to the brace
that closes it, literals left aside, and has to declare one type. It becomes a
source file of its own under the name behind the keyword. Closing braces that
close nothing count for nothing.
-/

namespace ClassDiagram.Declaration

/-- The blocks at the top level of a text. `depth` braces are open, and `seen`
holds the characters since the last block or statement, the latest first. -/
def blocksFrom (depth : Nat) (seen : Text) : List Glyph → List Text
  | [] => []
  | g :: gs =>
    match g.role, depth with
    | .openBrace, d => blocksFrom (d + 1) (g.char :: seen) gs
    | .closeBrace, 1 => (g.char :: seen).reverse :: blocksFrom 0 [] gs
    | .closeBrace, d + 2 => blocksFrom (d + 1) (g.char :: seen) gs
    | .semicolon, 0 => blocksFrom 0 [] gs
    | _, _ => blocksFrom depth (g.char :: seen) gs

/-- The blocks at the top level of a text, without the blanks around them. -/
def blocks (t : Text) : List Text := (blocksFrom 0 [] t.glyphs).map Text.trim

/-- The words from each keyword of a type on. -/
def fromKeywords : List Text → List (List Text)
  | [] => []
  | word :: words =>
    if typeKeywords.contains word then (word :: words) :: fromKeywords words
    else fromKeywords words

/-- The name of the type that a block declares. -/
def declaredName (block : Text) : Except SyntaxFault Text :=
  let header := block.takeWhile (· != '{')
  match fromKeywords (Text.words header) with
  | [_ :: words] =>
    match (words.head?.map bareName).filter fun name => !name.isEmpty with
    | some name => .ok name
    | none => .error (.unnamedDeclaration (String.ofList header))
  | _ => .error (.ambiguousDeclaration (String.ofList header))

/-- The source file of one block found in the file of `parent`. -/
def child (parent : String) (block : Text) : Except Fault SourceFile :=
  match declaredName block with
  | .ok name => .ok ⟨String.ofList name, String.ofList block, some parent⟩
  | .error fault => .error (.classSyntax parent fault)

/-- The source files of all blocks of a text, or the first fault among them. -/
def children (parent : String) (t : Text) : Except Fault (List SourceFile) :=
  (blocks t).mapM (child parent)

end ClassDiagram.Declaration
