import ClassDiagram.Literal.Basic

/-!
# Literals as spans of bytes

The literals of a text as a list of spans, in byte offsets and in the order in
which they stand in the text. A span runs from its opening quote to its closing
quote, or to the end of the text when it is never closed. An offset is literal
if it lies strictly between the two ends of a span.
-/

namespace ClassDiagram

/-- One literal, by the offsets of its two quotes. -/
structure Span where
  quote : Quote
  start : Nat
  stop : Nat
  deriving DecidableEq, Repr

namespace Span

/-- True of the offsets strictly between the quotes. -/
def holds (span : Span) (offset : Nat) : Bool := span.start < offset && offset < span.stop

/-- The spans of a text that begins at `offset`, after a literal that was opened
earlier, or none. -/
def listFrom (offset : Nat) (pending : Option (Quote × Nat)) : Text → List Span
  | [] =>
    match pending with
    | none => []
    | some (q, start) => [⟨q, start, offset⟩]
  | c :: t =>
    match pending, Quote.ofChar? c with
    | none, none => listFrom (offset + c.utf8Size) none t
    | none, some q => listFrom (offset + c.utf8Size) (some (q, offset)) t
    | some (q, start), found =>
      if found = some q then ⟨q, start, offset⟩ :: listFrom (offset + c.utf8Size) none t
      else listFrom (offset + c.utf8Size) (some (q, start)) t

/-- Among spans in ascending order only the last one that starts before an
offset can hold it. -/
def anyHolds (spans : List Span) (offset : Nat) : Bool :=
  (spans.takeWhile fun span => span.start < offset).getLast?.any fun span => span.holds offset

end Span

/-- The literals of a text, in order. -/
def Text.spans (t : Text) : List Span := Span.listFrom 0 none t

end ClassDiagram
