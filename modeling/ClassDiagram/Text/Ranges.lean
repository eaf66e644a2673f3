/-!
# Sets of characters given by ranges

A property of characters that follows no simple rule is a list of inclusive
ranges of code points.
-/

namespace ClassDiagram.Text

/-- Inclusive ranges of code points, in ascending order. -/
abbrev Ranges := List (Nat × Nat)

/-- True if one of the ranges holds the character. -/
def Ranges.holds (ranges : Ranges) (c : Char) : Bool :=
  ranges.any fun (low, high) => low ≤ c.toNat && c.toNat ≤ high

@[simp] theorem Ranges.holds_nil (c : Char) : Ranges.holds [] c = false := rfl

@[simp] theorem Ranges.holds_cons (low high : Nat) (ranges : Ranges) (c : Char) :
    Ranges.holds ((low, high) :: ranges) c =
      ((low ≤ c.toNat && c.toNat ≤ high) || Ranges.holds ranges c) := by
  simp [Ranges.holds]

end ClassDiagram.Text
