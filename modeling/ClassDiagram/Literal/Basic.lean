import ClassDiagram.Text.Basic

/-!
# Quoted literals

Braces, semicolons, commas and parentheses have no meaning inside a string or
character literal. Reading a text from left to right, a quote opens a literal
and the next quote of the same kind closes it; there are no escapes. A glyph is
a character together with whether it stands inside a literal. The quotes
themselves stand outside, and an unclosed literal runs to the end of the text.

`glyphs` is the automaton over the whole text. Its two laws say that it forgets
nothing (`chars_glyphsFrom`) and that a text may be marked piece by piece
(`glyphsFrom_append`).
-/

namespace ClassDiagram

/-- The two quotes that enclose literals. -/
inductive Quote where
  /-- The quote of character literals, `'`. -/
  | apostrophe
  /-- The quote of string literals, `"`. -/
  | quotation
  deriving DecidableEq, Repr

namespace Quote

/-- The quote that a character is. -/
def ofChar? (c : Char) : Option Quote :=
  if c == '\'' then some apostrophe
  else if c == '"' then some quotation
  else none

/-- The literal that is open after one more character. A quote of the other
kind inside a literal is plain text. -/
def next (pending : Option Quote) (c : Char) : Option Quote :=
  match pending, ofChar? c with
  | none, found => found
  | some q, none => some q
  | some q, some found => if q = found then none else some q

/-- The literal that is open after a text. -/
def after (pending : Option Quote) (t : Text) : Option Quote := t.foldl next pending

@[simp] theorem after_nil (pending : Option Quote) : after pending [] = pending := rfl

@[simp] theorem after_cons (pending : Option Quote) (c : Char) (t : Text) :
    after pending (c :: t) = after (next pending c) t := rfl

@[simp] theorem after_append (pending : Option Quote) (s t : Text) :
    after pending (s ++ t) = after (after pending s) t := by
  simp [after]

/-- True of a character that stands inside the open literal, which its closing
quote does not. -/
def encloses (pending : Option Quote) (c : Char) : Bool :=
  pending.isSome && ofChar? c != pending

end Quote

/-- What a character means for the structure of a declaration. -/
inductive Role where
  | openBrace
  | closeBrace
  | semicolon
  | openParen
  | closeParen
  | plain
  deriving DecidableEq, Repr

/-- The role of a character outside literals. -/
def Role.ofChar (c : Char) : Role :=
  if c == '{' then openBrace
  else if c == '}' then closeBrace
  else if c == ';' then semicolon
  else if c == '(' then openParen
  else if c == ')' then closeParen
  else plain

/-- A character and whether it stands inside a literal. -/
structure Glyph where
  char : Char
  quoted : Bool
  deriving DecidableEq, Repr

namespace Glyph

/-- Inside a literal every character is plain. -/
def role (g : Glyph) : Role := if g.quoted then .plain else Role.ofChar g.char

@[simp] theorem role_quoted (c : Char) : role ⟨c, true⟩ = .plain := rfl

@[simp] theorem role_bare (c : Char) : role ⟨c, false⟩ = Role.ofChar c := rfl

/-- The characters of marked text. -/
def chars (gs : List Glyph) : Text := gs.map Glyph.char

@[simp] theorem chars_nil : chars [] = [] := rfl

@[simp] theorem chars_cons (g : Glyph) (gs : List Glyph) :
    chars (g :: gs) = g.char :: chars gs := rfl

@[simp] theorem chars_append (a b : List Glyph) : chars (a ++ b) = chars a ++ chars b := by
  simp [chars]

end Glyph

/-- Mark a text that follows an open literal, or none. -/
def Text.glyphsFrom (pending : Option Quote) : Text → List Glyph
  | [] => []
  | c :: t => ⟨c, Quote.encloses pending c⟩ :: glyphsFrom (Quote.next pending c) t

/-- Mark the characters of a text that stand inside its literals. -/
def Text.glyphs (t : Text) : List Glyph := Text.glyphsFrom none t

@[simp] theorem Text.glyphsFrom_nil (pending : Option Quote) :
    Text.glyphsFrom pending [] = [] := rfl

@[simp] theorem Text.glyphsFrom_cons (pending : Option Quote) (c : Char) (t : Text) :
    Text.glyphsFrom pending (c :: t) =
      ⟨c, Quote.encloses pending c⟩ :: Text.glyphsFrom (Quote.next pending c) t := rfl

@[simp] theorem Text.chars_glyphsFrom (pending : Option Quote) (t : Text) :
    Glyph.chars (Text.glyphsFrom pending t) = t := by
  induction t generalizing pending with
  | nil => rfl
  | cons c t ih => simp [ih]

@[simp] theorem Text.chars_glyphs (t : Text) : Glyph.chars (Text.glyphs t) = t :=
  Text.chars_glyphsFrom none t

theorem Text.glyphsFrom_append (pending : Option Quote) (s t : Text) :
    Text.glyphsFrom pending (s ++ t) =
      Text.glyphsFrom pending s ++ Text.glyphsFrom (Quote.after pending s) t := by
  induction s generalizing pending with
  | nil => rfl
  | cons c s ih => simp [ih]

end ClassDiagram
