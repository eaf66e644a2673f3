import ClassDiagram.Text.Case

/-!
# Settings

The behaviours with more than one defensible reading: how the modifiers of a
member are decoded, whether interfaces may extend interfaces, and how repeated
edges are suppressed. Each choice has one name and is found by its names in any
case.
-/

namespace ClassDiagram

/-- A name that stands for none of the choices of a setting. -/
structure UnknownChoice where
  /-- What was to be chosen. -/
  setting : String
  /-- The name as it was given. -/
  given : String
  deriving DecidableEq, Repr

/-- The wording of the fault. -/
def UnknownChoice.message (fault : UnknownChoice) : String :=
  "Unknown " ++ fault.setting ++ ": " ++ fault.given

/-- The choice with a given name among the names of all choices. -/
def chooseByName (setting : String) (names : List (String × α)) (given : String) :
    Except UnknownChoice α :=
  match names.find? fun (word, _) => Text.namesWord given word with
  | some (_, choice) => .ok choice
  | none => .error ⟨setting, given⟩

/-- How the modifiers in front of a member are decoded. -/
inductive Decoding where
  /-- By their keywords, in any order. -/
  | keyword
  /-- By the number of words, which are taken to be an optional access keyword,
  `static`, `final`, a type and a name. -/
  | positional
  deriving DecidableEq, Repr

namespace Decoding

/-- The name of the choice. -/
def name : Decoding → String
  | keyword => "keyword"
  | positional => "positional"

/-- The choice of a name. -/
def named (given : String) : Except UnknownChoice Decoding :=
  chooseByName "modifier decoding" [("keyword", keyword), ("positional", positional)] given

end Decoding

/-- How repeated edges are suppressed. -/
inductive Dedupe where
  /-- The edges of one kind of one type stay or go together: they go when each
  of them is there already. -/
  | batch
  /-- Each edge is decided on its own. -/
  | perEdge
  deriving DecidableEq, Repr

namespace Dedupe

/-- The name of the choice. -/
def name : Dedupe → String
  | batch => "batch"
  | perEdge => "per-edge"

/-- The choice of a name; the second one has three spellings. -/
def named (given : String) : Except UnknownChoice Dedupe :=
  chooseByName "dedupe mode"
    [("batch", batch), ("per-edge", perEdge), ("per_edge", perEdge), ("peredge", perEdge)] given

end Dedupe

/-- The settings of one run. -/
structure Settings where
  decoding : Decoding := .keyword
  interfaceExtends : Bool := false
  dedupe : Dedupe := .batch
  deriving DecidableEq, Repr

end ClassDiagram
