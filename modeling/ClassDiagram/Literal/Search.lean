import ClassDiagram.Literal.Basic

/-!
# Searching outside literals

The first occurrence of a needle that does not start inside a literal. An
occurrence that starts inside a literal is passed over by one byte. When the
character there has more than one byte the search ends without a result, since
the next offset is no place where a text can be cut.
-/

namespace ClassDiagram.Glyph

/-- The glyphs after `needle`, if the glyphs begin with it. -/
def dropNeedle? : Text → List Glyph → Option (List Glyph)
  | [], gs => some gs
  | _ :: _, [] => none
  | c :: needle, g :: gs => if c = g.char then dropNeedle? needle gs else none

/-- The glyphs before and after the first occurrence of `needle` that starts
outside literals. -/
def cutOutside? (needle : Text) : List Glyph → Option (List Glyph × List Glyph)
  | [] => if needle.isEmpty then some ([], []) else none
  | g :: gs =>
    match dropNeedle? needle (g :: gs) with
    | none => (cutOutside? needle gs).map fun (before, after) => (g :: before, after)
    | some after =>
      if !g.quoted then some ([], after)
      else if g.char.utf8Size = 1 then
        (cutOutside? needle gs).map fun (before, after) => (g :: before, after)
      else none

end ClassDiagram.Glyph

namespace ClassDiagram.Text

/-- The byte offset of the first occurrence of `needle` at or after the offset
`start` that is not inside a literal of the text. -/
def findOutside (t needle : Text) (start : Nat) : Option Nat := do
  let (passed, _) ← splitAtByte? start t
  let (before, _) ← Glyph.cutOutside? needle (t.glyphs.drop passed.length)
  return start + size (Glyph.chars before)

end ClassDiagram.Text
