import ClassDiagram.Catalogue.Basic
import ClassDiagram.Declaration.Keyword
import ClassDiagram.Fault

/-!
# The signature of a type

The kind of a type and the names of its supertypes, read from its header. Only
the words count that begin outside generic arguments, so the bound in
`class Box<T extends Number>` is no supertype. A list of supertypes is the one
word behind its keyword.
-/

namespace ClassDiagram.Declaration

/-- The words of a header that begin outside angle brackets, when the first word
begins inside `depth` of them. -/
def topWordsFrom (depth : Nat) : List Text → List Text
  | [] => []
  | word :: words =>
    if depth = 0 then word :: topWordsFrom (angleDepth depth word) words
    else topWordsFrom (angleDepth depth word) words

/-- The words of a header that begin outside generic arguments. -/
def topWords (header : Text) : List Text := topWordsFrom 0 (Text.words header)

/-- The pieces of a list between the commas outside angle brackets. -/
def listPieces (depth : Nat) : Text → List Text
  | [] => [[]]
  | c :: t =>
    if c == ',' && depth == 0 then [] :: listPieces depth t
    else Text.consWord c (listPieces (angleStep depth c) t)

/-- The bare names of a list of types. -/
def typeNames (list : Text) : List Text :=
  ((listPieces 0 list).map fun piece => bareName (Text.trim piece)).filter fun name => !name.isEmpty

/-- What a header says about its type. -/
structure Signature where
  kind : Kind
  extended : Option (List Text)
  implemented : Option (List Text)
  deriving DecidableEq, Repr

namespace Signature

/-- The word behind the first occurrence of a keyword. -/
def wordAfter? (keyword : String) (words : List Text) : Option Text :=
  (words.dropWhile (· != keyword.toList)).tail.head?

/-- The kind that the words of a header state. Exactly one of them has to be the
keyword of a type, and only a class can be abstract. -/
def kindOf (header : Text) (words : List Text) : Except SyntaxFault Kind :=
  if (words.filter fun word => typeKeywords.contains word).length ≠ 1 then
    .error (.ambiguousHeader (String.ofList header))
  else
    match words.contains "class".toList, words.contains "abstract".toList with
    | true, true => .ok .abstractClass
    | true, false => .ok .plainClass
    | false, true => .error (.abstractNonClass (String.ofList header))
    | false, false => .ok (if words.contains "interface".toList then .interface else .enum)

/-- Read the header of a type. An enum has no supertypes, and an interface
implements nothing. -/
def ofHeader (header : Text) : Except SyntaxFault Signature := do
  let words := topWords header
  let kind ← kindOf header words
  return {
    kind
    extended := if kind = .enum then none else (wordAfter? "extends" words).map typeNames
    implemented :=
      if kind.isClassLike then (wordAfter? "implements" words).map typeNames else none }

end Signature

end ClassDiagram.Declaration
