import ClassDiagram.Catalogue.Basic
import ClassDiagram.Settings

/-!
# Modifiers

A member begins with modifiers, a type and a name. The keyword decoding takes
modifier keywords as long as there are any, in whatever order. The positional
decoding counts words: it takes an access keyword, then `static`, then `final`
to be there, as many of them as the number of words leaves room for.
-/

namespace ClassDiagram.Member

/-- The modifiers of a member. -/
structure Modifiers where
  access : Access := default
  isStatic : Bool := false
  isFinal : Bool := false
  isAbstract : Bool := false
  deriving DecidableEq, Repr

namespace Modifiers

/-- Modifier keywords that leave no trace in a diagram. -/
def ignoredKeywords : List Text :=
  ["transient", "volatile", "synchronized", "native", "default", "strictfp", "sealed",
    "non-sealed"].map String.toList

/-- The modifiers with one more keyword, if the word is one. -/
def add? (m : Modifiers) (word : Text) : Option Modifiers :=
  match Access.ofKeyword? word with
  | some access => some { m with access }
  | none =>
    if word = "static".toList then some { m with isStatic := true }
    else if word = "final".toList then some { m with isFinal := true }
    else if word = "abstract".toList then some { m with isAbstract := true }
    else if ignoredKeywords.contains word then some m
    else none

/-- Take the modifier keywords in front of the words. -/
def takeKeywords (m : Modifiers) : List Text → Modifiers × List Text
  | [] => (m, [])
  | word :: words =>
    match m.add? word with
    | some more => more.takeKeywords words
    | none => (m, word :: words)

/-- Infer the modifiers from the number of words. With two words or fewer there
are none. -/
def byPosition (words : List Text) : Modifiers × List Text :=
  if words.length ≤ 2 then ({}, words)
  else
    let stated := words.head?.bind Access.ofKeyword?
    let access := stated.getD default
    let rest := if stated.isSome then words.tail else words
    if rest.length = 3 && rest.head? == some "abstract".toList then
      ({ access, isAbstract := true }, rest.tail)
    else
      let optional := min (rest.length - 2) 2
      ({ access, isStatic := 1 ≤ optional, isFinal := 2 ≤ optional }, rest.drop optional)

/-- The modifiers in front of the words of a member, and the words behind them. -/
def decode (decoding : Decoding) (words : List Text) : Modifiers × List Text :=
  match decoding with
  | .keyword => takeKeywords {} words
  | .positional => byPosition words

end Modifiers

/-- The last two words, a type and a name. -/
def lastTwo? : List Text → Option (Text × Text)
  | [] => none
  | [_] => none
  | [type, name] => some (type, name)
  | _ :: words => lastTwo? words

end ClassDiagram.Member
