import ClassDiagram.Text.Basic

/-!
# The keywords of a declaration

A declaration of a type is recognised by one of three keywords as a word of its
own, and the bare name of a type is what stands before its generic arguments.
-/

namespace ClassDiagram.Declaration

/-- The keywords that introduce a type. -/
def typeKeywords : List Text := ["class".toList, "interface".toList, "enum".toList]

/-- True if the text before a brace declares a type. -/
def declaresType (header : Text) : Bool :=
  (Text.words header).any fun word => typeKeywords.contains word

/-- The name without its generic arguments. -/
def bareName (name : Text) : Text := name.takeWhile (· != '<')

/-- The depth of angle brackets after one more character. A closing bracket too
many counts for nothing. -/
def angleStep (depth : Nat) (c : Char) : Nat :=
  if c == '<' then depth + 1 else if c == '>' then depth - 1 else depth

/-- The depth of angle brackets after a text. -/
def angleDepth (depth : Nat) (t : Text) : Nat := t.foldl angleStep depth

@[simp] theorem angleDepth_nil (depth : Nat) : angleDepth depth [] = depth := rfl

@[simp] theorem angleDepth_cons (depth : Nat) (c : Char) (t : Text) :
    angleDepth depth (c :: t) = angleDepth (angleStep depth c) t := rfl

@[simp] theorem angleDepth_append (depth : Nat) (s t : Text) :
    angleDepth depth (s ++ t) = angleDepth (angleDepth depth s) t := by
  simp [angleDepth]

end ClassDiagram.Declaration
