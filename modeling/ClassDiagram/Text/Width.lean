import ClassDiagram.Text.Basic
import ClassDiagram.Text.Width.Sign

/-!
# Display width

The number of terminal columns that a text takes: none for line feeds, combining
marks and other characters that extend the one before, two for emoji and for the
wide and fullwidth forms of East Asian scripts, one for most else. Characters that
are drawn as one sign take the columns of the sign, and a variation selector
chooses whether the character before it is drawn as an emoji or as a text.

A character is therefore measured together with what follows it, and a text from
its end. A space belongs to no sign (`Front.extend_space`), so padding and
centring add exactly the columns they mean to.
-/

namespace ClassDiagram.Text

/-- The two forms of an emoji, between which a variation selector chooses. -/
inductive Form where
  | text
  | emoji
  deriving DecidableEq, Repr

/-- The selector that asks for a form of the character before it. -/
def Form.selector : Form → Char
  | text => Char.ofNat 0xFE0E
  | emoji => Char.ofNat 0xFE0F

/-- What a text begins with: a sign, possibly behind a selector. -/
structure Front where
  sign : Sign
  form : Option Form := none
  deriving DecidableEq, Repr

/-- The columns that a sign settles if it is closed unless it is to be kept, and the
sign that is left. -/
def Sign.closeUnless (sign : Sign) (kept : Bool) : Nat × Sign :=
  if kept then (0, sign) else (sign.pending, .plain)

/-- The columns that a selector settles in front of a sign, and what the two are. It
belongs to no sign but a ligature and, as the selector of an emoji, to an emoji that
is tied to the next one. -/
def Sign.select (sign : Sign) (form : Form) : Nat × Front :=
  let left := sign.closeUnless (sign.isLigature || (form == .emoji && sign.awaitsEmoji))
  (left.1, ⟨left.2, some form⟩)

/-- The columns that a character settles in front of a sign, and what the two are. A
sign that the character does not join is closed. -/
def Sign.extend (sign : Sign) (c : Char) : Nat × Front :=
  if c == Form.emoji.selector then sign.select .emoji
  else if c == Form.text.selector then sign.select .text
  else
    match sign.join? c with
    | some (columns, joined) => (columns, ⟨joined, none⟩)
    | none => ((alone c).1 + sign.pending, ⟨(alone c).2, none⟩)

/-- The same for a character that the selector in front of the sign says nothing
about. It finds the sign open only if that is a ligature. -/
def Sign.extendPastSelector (sign : Sign) (c : Char) : Nat × Front :=
  let left := sign.closeUnless sign.isLigature
  let own := left.2.extend c
  (own.1 + left.1, own.2)

/-- The columns that a character settles in front of a text, and what the longer
text begins with. -/
def Front.extend (front : Front) (c : Char) : Nat × Front :=
  match front.form with
  | none => front.sign.extend c
  | some .text =>
    if hasNarrowForm c then (1 + front.sign.pending, ⟨.plain, none⟩)
    else front.sign.extendPastSelector c
  | some .emoji =>
    if hasEmojiForm c then
      (if front.sign.awaitsEmoji then 0 else 2 + front.sign.pending, ⟨.emoji, none⟩)
    else front.sign.extendPastSelector c

/-- The settled columns of a text, and what it begins with. -/
def measure : Text → Nat × Front
  | [] => (0, ⟨.plain, none⟩)
  | c :: t =>
    let rest := measure t
    let own := rest.2.extend c
    (own.1 + rest.1, own.2)

/-- The columns that a text takes. -/
def width (t : Text) : Nat := (measure t).1 + (measure t).2.sign.pending

@[simp] theorem width_nil : width [] = 0 := rfl

theorem Sign.extend_space (sign : Sign) :
    sign.extend ' ' = (1 + sign.pending, ⟨.plain, none⟩) := by
  have selects (form : Form) : (' ' == form.selector) = false := by cases form <;> decide
  simp [Sign.extend, selects, Sign.join?_space, alone_space]

theorem Sign.extendPastSelector_space (sign : Sign) :
    sign.extendPastSelector ' ' = (1 + sign.pending, ⟨.plain, none⟩) := by
  rw [Sign.extendPastSelector, Sign.closeUnless]
  split <;> simp [Sign.extend_space, Sign.pending]

/-- A space closes every sign and takes one column itself. -/
theorem Front.extend_space (front : Front) :
    front.extend ' ' = (1 + front.sign.pending, ⟨.plain, none⟩) := by
  have narrow : hasNarrowForm ' ' = false := by decide +kernel
  have wide : hasEmojiForm ' ' = false := by decide +kernel
  rw [Front.extend]
  split <;> simp [narrow, wide, Sign.extend_space, Sign.extendPastSelector_space]

/-- The text with blanks on its right up to the given number of columns; a text
that is already wider stays as it is. -/
def padRight (t : Text) (columns : Nat) : Text :=
  t ++ List.replicate (columns - width t) ' '

/-- The text with blanks on both sides up to the given number of columns, an odd
blank on the right. -/
def center (t : Text) (columns : Nat) : Text :=
  padRight (List.replicate ((columns - width t) / 2) ' ' ++ t) columns

/-- The width of the widest line. -/
def maxWidth (lines : List Text) : Nat := lines.foldl (fun widest line => max widest (width line)) 0

end ClassDiagram.Text
