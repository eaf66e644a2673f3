import ClassDiagram.Declaration.Keyword
import ClassDiagram.Literal.Basic

/-!
# The body of a type

A body reaches from its opening brace to the brace that balances it, literals
left aside. It falls into pieces: each statement up to its semicolon, each block
up to its closing brace, and what is left at the end. A block before whose brace
a keyword of a type stands is a nested declaration; all other pieces are member
text.
-/

namespace ClassDiagram.Declaration

/-- A piece of a body. -/
inductive Piece where
  /-- Text of members of the type itself. -/
  | member (text : Text)
  /-- The declaration of a type directly inside the body. -/
  | nested (text : Text)
  deriving DecidableEq, Repr

namespace Piece

/-- The text of a piece of either sort. -/
def text : Piece → Text
  | member t => t
  | nested t => t

/-- The text that a piece adds to the members. -/
def memberText : Piece → Text
  | member t => t
  | nested _ => []

/-- The nested declaration that a piece is. -/
def nested? : Piece → Option Text
  | member _ => none
  | nested t => some t

/-- A finished block. -/
def block (declares : Bool) (t : Text) : Piece := if declares then nested t else member t

end Piece

/-- The pieces of a body, and what follows its closing brace, if it has one. -/
structure Body where
  pieces : List Piece
  behind : Option (List Glyph)
  deriving Repr

namespace Body

/-- The text of the members. -/
def members (b : Body) : Text := b.pieces.flatMap Piece.memberText

/-- The nested declarations, in order. -/
def nested (b : Body) : List Text := b.pieces.filterMap Piece.nested?

/-- The body with one more piece in front. -/
def withPiece (p : Piece) (b : Body) : Body := ⟨p :: b.pieces, b.behind⟩

@[simp] theorem pieces_withPiece (p : Piece) (b : Body) :
    (b.withPiece p).pieces = p :: b.pieces := rfl

@[simp] theorem nested_withPiece (p : Piece) (b : Body) :
    (b.withPiece p).nested = p.nested?.toList ++ b.nested := by
  cases p <;> rfl

@[simp] theorem members_withPiece (p : Piece) (b : Body) :
    (b.withPiece p).members = p.memberText ++ b.members := rfl

/-- Read on inside a body. `depth` blocks are open in it, `declares` says whether
the outermost of them declares a type, and `seen` holds the characters of the
current piece, the latest first. -/
def read (depth : Nat) (declares : Bool) (seen : Text) : List Glyph → Body
  | [] => ⟨[.member seen.reverse], none⟩
  | g :: gs =>
    match g.role, depth with
    | .openBrace, 0 => read 1 (declaresType seen.reverse) (g.char :: seen) gs
    | .openBrace, d + 1 => read (d + 2) declares (g.char :: seen) gs
    | .closeBrace, 0 => ⟨[.member seen.reverse], some gs⟩
    | .closeBrace, 1 => (read 0 false [] gs).withPiece (.block declares (g.char :: seen).reverse)
    | .closeBrace, d + 2 => read (d + 1) declares (g.char :: seen) gs
    | .semicolon, 0 => (read 0 false [] gs).withPiece (.member (g.char :: seen).reverse)
    | _, _ => read depth declares (g.char :: seen) gs

/-- The body that begins right behind its opening brace. -/
def ofGlyphs (gs : List Glyph) : Body := read 0 false [] gs

/-- The body behind a brace at a byte offset of a text. A brace past the end has
an empty body. -/
def atBrace (t : Text) (brace : Nat) : Body :=
  match Text.splitAtByte? (brace + 1) t with
  | some (before, _) => ofGlyphs (t.glyphs.drop before.length)
  | none => ⟨[], none⟩

/-- The byte offset of the closing brace in the text, or the size of the text if
the body never closes. -/
def stop (b : Body) (t : Text) : Nat :=
  match b.behind with
  | some gs => Text.size t - Text.size (Glyph.chars gs) - 1
  | none => Text.size t

end Body

end ClassDiagram.Declaration
