import ClassDiagram.Declaration.Keyword
import ClassDiagram.Text.WordChar

/-!
# Locating the header of a type

A run is a stretch of a text without semicolons and braces that an opening brace
follows. The header of a type is the first run that mentions its name right
behind the keyword of a type; if there is none, the first run that mentions its
name at all. So a method that returns the type does not pass for its
declaration.

A mention is a word: it begins and ends at word boundaries. A name of other
characters than word characters is looked for literally and may even hold marks
that end a run; then the run is the one in which the mention starts, the last
mention that starts there counts, and the brace is the first mark after it.
-/

namespace ClassDiagram.Declaration

/-- The marks that end a run. -/
def endsRun (c : Char) : Bool := c == ';' || c == '{' || c == '}'

/-- The text up to the next mark that ends a run, and the text behind it, if that
mark is an opening brace. -/
def upToBrace? (t : Text) : Option (Text × Text) :=
  match t.dropWhile fun c => !endsRun c with
  | '{' :: behind => some (t.takeWhile fun c => !endsRun c, behind)
  | _ => none

/-- What a mention at some place tells: the text from there to the brace, and the
text behind the brace. The first argument is the character before the place. -/
abbrev Mention := Option Char → Text → Option (Text × Text)

/-- The name itself, which has to end at a word boundary. -/
def nameEnding (name : Text) : Mention := fun before t =>
  match Text.dropPrefix? name t with
  | none => none
  | some rest =>
    let last := name.getLast?.or before
    if Text.isBoundary last rest.head? then
      (upToBrace? rest).map fun (run, behind) => (name ++ run, behind)
    else none

/-- Blanks and then the name. As many blanks as possible are passed, but a name
may begin with blanks itself. -/
def blanksThenName (name : Text) : Mention
  | _, [] => none
  | _, c :: t =>
    if Text.isBlank c then
      match blanksThenName name (some c) t with
      | some (run, behind) => some (c :: run, behind)
      | none => (nameEnding name (some c) t).map fun (run, behind) => (c :: run, behind)
    else none

/-- The name as a word. -/
def nameMention (name : Text) : Mention := fun before t =>
  if Text.isBoundary before t.head? then nameEnding name before t else none

/-- The keyword of a type as a word, blanks, and the name as a word. -/
def keywordMention (name : Text) : Mention := fun before t =>
  if before.any Text.isWordChar then none
  else
    typeKeywords.findSome? fun keyword =>
      match Text.dropPrefix? keyword t with
      | none => none
      | some rest =>
        (blanksThenName name keyword.getLast? rest).map fun (run, behind) =>
          (keyword ++ run, behind)

/-- The last mention that starts in the current run. -/
def lastMention? (mention : Mention) : Mention
  | before, [] => mention before []
  | before, c :: t =>
    if endsRun c then mention before (c :: t)
    else
      match lastMention? mention (some c) t with
      | some (run, behind) => some (c :: run, behind)
      | none => mention before (c :: t)

/-- A header with what stands around it: the text before the run, the run with
its blanks, and the text behind the brace. -/
structure Header where
  before : Text
  run : Text
  behind : Text
  deriving DecidableEq, Repr

namespace Header

/-- The header itself. -/
def text (h : Header) : Text := Text.trim h.run

/-- The text up to the first character of the header that is no blank. -/
def lead (h : Header) : Text := h.before ++ h.run.takeWhile Text.isBlank

/-- The byte offset at which the header begins. -/
def start (h : Header) : Nat := Text.size h.lead

/-- The byte offset of the opening brace. -/
def brace (h : Header) : Nat := Text.size (h.before ++ h.run)

/-- The whole text. -/
def source (h : Header) : Text := h.before ++ h.run ++ '{' :: h.behind

end Header

/-- The first run with a mention. -/
def firstRun? (mention : Mention) (t : Text) : Option Header :=
  match lastMention? mention none t with
  | some (run, behind) => some ⟨[], run, behind⟩
  | none =>
    match _h : t.dropWhile fun c => !endsRun c with
    | [] => none
    | mark :: rest =>
      (firstRun? mention rest).map fun found =>
        { found with before := (t.takeWhile fun c => !endsRun c) ++ mark :: found.before }
termination_by t.length
decreasing_by
  have hs := (List.dropWhile_sublist (l := t) fun c => !endsRun c).length_le
  rw [_h, List.length_cons] at hs
  omega

/-- The header of the type of this name. Left out is the refusal of a name whose
pattern is too large to be compiled, which takes hundreds of kilobytes. -/
def Header.locate? (t name : Text) : Option Header :=
  (firstRun? (keywordMention name) t).or (firstRun? (nameMention name) t)

end ClassDiagram.Declaration
