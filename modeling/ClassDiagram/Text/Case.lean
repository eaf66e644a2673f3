import ClassDiagram.Text.Basic

/-!
# Letter case

The names of settings are lower-case ASCII words and may be given in any case.
Exactly twenty-seven characters have an ASCII letter as their lower-case form:
the capitals of ASCII and the Kelvin sign.
-/

namespace ClassDiagram.Text

/-- The lower-case form of a character as far as it is an ASCII letter; every
other character stands for itself. -/
def lowerAscii (c : Char) : Char :=
  if c.toNat == 0x212A then 'k' else c.toLower

/-- True if the lower-case form of `given` is the ASCII word `word`. -/
def namesWord (given word : String) : Bool :=
  given.toList.map lowerAscii == word.toList

end ClassDiagram.Text
