import ClassDiagram.Literal.Basic
import ClassDiagram.Member.Annotation

/-!
# Member records

The member text of a type is cut into fields, methods and initializer blocks.
Between members a semicolon ends a field or a method without a body, and a brace
opens the body of a method, an initializer block, or a braced value of a field,
whose record goes on to the next semicolon. Parentheses between members hide
braces and semicolons, so an annotation may have a braced argument. What is left
at the end is no member.

The scan is a machine that reads one glyph at a time and puts out a piece when
one is complete.
-/

namespace ClassDiagram.Member

/-- What a member record declares. -/
inductive RecordKind where
  | variable
  | method
  deriving DecidableEq, Repr

/-- The text of one member, and the statements in the body of a method. -/
structure Record where
  kind : RecordKind
  value : Text
  statements : List Text
  deriving DecidableEq, Repr

/-- True if a plain assignment stands before any parenthesis, which makes the text
a field with a value. -/
def assignsFirst (t : Text) : Bool :=
  Text.includes ((dropAnnotations t).takeWhile (· != '(')) " = ".toList

/-- True if the text before a brace opens an instance or static initializer. -/
def opensInitializer (t : Text) : Bool :=
  let lead := Text.trim (dropAnnotations t)
  lead.isEmpty || lead == "static".toList

/-- True if the text looks like the signature of a method. -/
def isSignature (t : Text) : Bool := (dropAnnotations t).contains '(' && !assignsFirst t

/-- What the outermost open braces enclose. -/
inductive Enclosure where
  /-- Nothing: the scan is between members. -/
  | none
  | method
  | initializer
  /-- The value of a field, such as the elements of an array. -/
  | fieldValue
  deriving DecidableEq, Repr

/-- What a brace behind this text encloses. -/
def Enclosure.opened (lead : Text) : Enclosure :=
  if opensInitializer lead then initializer
  else if assignsFirst lead then fieldValue
  else method

/-- A piece of member text. -/
inductive Segment where
  | field (text : Text)
  | method (text : Text) (statements : List Text)
  /-- An initializer block, which is dropped. -/
  | initializer (text : Text)
  deriving DecidableEq, Repr

namespace Segment

/-- The text of a piece. -/
def text : Segment → Text
  | field t => t
  | method t _ => t
  | initializer t => t

/-- The record of a piece that is a member. -/
def record? : Segment → Option Record
  | field t => some ⟨.variable, Text.trim t, []⟩
  | method t statements => some ⟨.method, Text.trim t, statements⟩
  | initializer _ => none

end Segment

/-- The state of the scan. Texts hold their latest character first, and so does
the list of statements. -/
structure Scan where
  /-- Open braces. -/
  depth : Nat := 0
  /-- Open parentheses between members. -/
  parens : Nat := 0
  enclosure : Enclosure := .none
  /-- The current piece. -/
  seen : Text := []
  /-- The current statement. -/
  statement : Text := []
  statements : List Text := []
  deriving DecidableEq, Repr

namespace Scan

/-- Between two members nothing is pending. -/
def fresh : Scan := {}

/-- Take one more character. -/
def take (s : Scan) (c : Char) : Scan :=
  { s with seen := c :: s.seen, statement := c :: s.statement }

/-- True where parentheses between members hide braces and semicolons. -/
def hidden (s : Scan) : Bool := s.depth == 0 && s.parens > 0

/-- The statements after a semicolon; blank ones do not count. -/
def endStatement (s : Scan) : List Text :=
  let statement := Text.trim s.statement.reverse
  if statement.isEmpty then s.statements else statement :: s.statements

/-- An opening brace. -/
def openBrace (s : Scan) (c : Char) : Scan :=
  { s.take c with
    depth := s.depth + 1
    enclosure := if s.depth = 0 then .opened s.seen.reverse else s.enclosure
    statement := [] }

/-- A closing brace. It completes the piece if it closes a method or an
initializer. -/
def closeBrace (s : Scan) (c : Char) : Scan × Option Segment :=
  let inner := { s.take c with depth := s.depth - 1, statement := [] }
  if s.depth ≤ 1 then
    match s.enclosure with
    | .method => (fresh, some (.method (s.take c).seen.reverse s.statements.reverse))
    | .initializer => (fresh, some (.initializer (s.take c).seen.reverse))
    | _ => (inner, none)
  else (inner, none)

/-- A semicolon. Between members it completes a piece. -/
def semicolon (s : Scan) (c : Char) : Scan × Option Segment :=
  if s.depth = 0 then
    let text := (s.take c).seen.reverse
    if s.enclosure = .none && isSignature s.seen.reverse then (fresh, some (.method text []))
    else (fresh, some (.field text))
  else
    match s.enclosure with
    | .method | .initializer =>
      ({ s.take c with statement := [], statements := s.endStatement }, none)
    | _ => (s.take c, none)

/-- Read one glyph. -/
def step (s : Scan) (g : Glyph) : Scan × Option Segment :=
  match g.role with
  | .plain => (s.take g.char, none)
  | .openParen =>
    (if s.depth = 0 then { s.take g.char with parens := s.parens + 1 } else s.take g.char, none)
  | .closeParen =>
    (if s.depth = 0 then { s.take g.char with parens := s.parens - 1 } else s.take g.char, none)
  | .openBrace => (if s.hidden then s.take g.char else s.openBrace g.char, none)
  | .closeBrace => if s.hidden then (s.take g.char, none) else s.closeBrace g.char
  | .semicolon => if s.hidden then (s.take g.char, none) else s.semicolon g.char

/-- The complete pieces of a stretch of glyphs. -/
def segments (s : Scan) : List Glyph → List Segment
  | [] => []
  | g :: gs => (s.step g).2.toList ++ segments (s.step g).1 gs

end Scan

/-- The complete pieces of a member text. -/
def segments (t : Text) : List Segment := Scan.fresh.segments t.glyphs

/-- The members of a member text, in order. -/
def records (t : Text) : List Record := (segments t).filterMap Segment.record?

end ClassDiagram.Member
