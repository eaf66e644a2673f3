import ClassDiagram.Text.Basic

/-!
# Comments

A line comment runs from `//` up to the next line feed, which stays. A block
comment runs from `/*` through the next `*/` after it. Either runs to the end of
the text when nothing ends it. Markers count wherever they stand, inside
literals and inside the other kind of comment alike.
-/

namespace ClassDiagram.Source

/-- The text after the first `*/`, or nothing. -/
def afterBlock : Text → Text
  | '*' :: '/' :: t => t
  | _ :: t => afterBlock t
  | [] => []

/-- The text from its first line feed on, or nothing. -/
def afterLine (t : Text) : Text := t.dropWhile (· != '\n')

theorem length_afterBlock (t : Text) : (afterBlock t).length ≤ t.length := by
  fun_induction afterBlock t with
  | case1 t => simp; omega
  | case2 c t _ ih => simp; omega
  | case3 => simp

theorem length_afterLine (t : Text) : (afterLine t).length ≤ t.length :=
  (List.dropWhile_sublist _).length_le

/-- The text without its comments. -/
def stripComments : Text → Text
  | '/' :: '/' :: t => stripComments (afterLine t)
  | '/' :: '*' :: t => stripComments (afterBlock t)
  | c :: t => c :: stripComments t
  | [] => []
termination_by t => t.length
decreasing_by
  · have := length_afterLine t
    simp only [List.length_cons]
    omega
  · have := length_afterBlock t
    simp only [List.length_cons]
    omega
  · simp

end ClassDiagram.Source
