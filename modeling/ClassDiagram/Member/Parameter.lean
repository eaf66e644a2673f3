import ClassDiagram.Catalogue.Basic
import ClassDiagram.Literal.Basic

/-!
# Parameters

A parameter list is split at the commas outside literals and brackets of any
kind. A piece is a parameter if it is exactly two words, a type and a name. For
this grammar a word ends at a space, a tab or a line break, and at no other
blank. Every other piece is dropped.
-/

namespace ClassDiagram.Member

/-- The characters that part the words of a parameter. -/
def isGap (c : Char) : Bool := c == ' ' || c == '\t' || c == '\n' || c == '\r'

/-- True of the texts without a word. -/
def isGapText (t : Text) : Bool := t.all isGap

/-- True of the texts that are a gap of at least one character. -/
def isRequiredGap (t : Text) : Bool := !t.isEmpty && isGapText t

/-- The text as one word, if it is one. -/
def word? (t : Text) : Option Text :=
  if !t.isEmpty && t.all (fun c => !isGap c) then some t else none

/-- The longest word in front of a text, and what follows it. -/
def takeWord (t : Text) : Text × Text :=
  (t.takeWhile fun c => !isGap c, t.dropWhile fun c => !isGap c)

/-- The two words of a text that has exactly two, with gaps around them or not. -/
def wordPair? (t : Text) : Option (Text × Text) :=
  let (first, afterFirst) := takeWord (t.dropWhile isGap)
  let (second, afterSecond) := takeWord (afterFirst.dropWhile isGap)
  if !first.isEmpty && !second.isEmpty && isGapText afterSecond then some (first, second) else none

/-- The depth of brackets after one more character. A closing bracket of any kind
closes the last one, and one too many counts for nothing. -/
def bracketStep (depth : Nat) (g : Glyph) : Nat :=
  if g.quoted then depth
  else if g.char == '<' || g.char == '(' || g.char == '[' then depth + 1
  else if g.char == '>' || g.char == ')' || g.char == ']' then depth - 1
  else depth

/-- The pieces between the commas outside literals and brackets. -/
def parameterPieces (depth : Nat) : List Glyph → List Text
  | [] => [[]]
  | g :: gs =>
    if !g.quoted && g.char == ',' && depth == 0 then [] :: parameterPieces depth gs
    else Text.consWord g.char (parameterPieces (bracketStep depth g) gs)

/-- The parameter that a piece is. -/
def parameter? (piece : Text) : Option Parameter :=
  if Text.isBlankText piece then none
  else (wordPair? piece).map fun (type, name) => ⟨String.ofList type, String.ofList name⟩

/-- The parameters of a list. -/
def parameters (t : Text) : List Parameter :=
  (parameterPieces 0 t.glyphs).filterMap parameter?

end ClassDiagram.Member
