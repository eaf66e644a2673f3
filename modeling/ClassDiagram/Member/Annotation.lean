import ClassDiagram.Text.Basic

/-!
# Annotations

Annotations in front of a member are dropped before anything else is read from
it. An annotation is an `@`, a name up to a blank or a parenthesis, and the
parenthesised arguments that follow it directly, if any. Parentheses are counted
wherever they stand, and arguments that never close take the rest of the text.
-/

namespace ClassDiagram.Member

/-- Cut the text behind an opening parenthesis at the one that closes it, which
neither part keeps. `depth` further parentheses are open. -/
def splitGroup (depth : Nat) : Text → Text × Text
  | [] => ([], [])
  | c :: t =>
    if c == ')' && depth == 0 then ([], t)
    else
      let depth := if c == '(' then depth + 1 else if c == ')' then depth - 1 else depth
      let (inside, behind) := splitGroup depth t
      (c :: inside, behind)

/-- The text behind an annotation whose `@` has been read. -/
def afterMark (t : Text) : Text :=
  match t.dropWhile fun c => !(Text.isBlank c || c == '(') with
  | '(' :: group => (splitGroup 0 group).2
  | tail => tail

theorem length_splitGroup_snd (depth : Nat) (t : Text) :
    (splitGroup depth t).2.length ≤ t.length := by
  induction t generalizing depth with
  | nil => simp [splitGroup]
  | cons c t ih =>
    simp only [splitGroup]
    split
    · simp
    · have := ih
        (if (c == '(') = true then depth + 1 else if (c == ')') = true then depth - 1 else depth)
      simp only [List.length_cons]
      omega

theorem length_afterMark (t : Text) : (afterMark t).length ≤ t.length := by
  have hs := (List.dropWhile_sublist (l := t) fun c => !(Text.isBlank c || c == '(')).length_le
  rw [afterMark]
  split
  · rename_i group h
    have hg := length_splitGroup_snd 0 group
    rw [h, List.length_cons] at hs
    omega
  · exact hs

/-- The text without the annotations and blanks in front of it. -/
def dropAnnotations (t : Text) : Text :=
  match _h : Text.trimStart t with
  | '@' :: rest => dropAnnotations (afterMark rest)
  | trimmed => trimmed
termination_by t.length
decreasing_by
  have hs := (List.dropWhile_sublist (l := t) Text.isBlank).length_le
  have ha := length_afterMark rest
  rw [Text.trimStart] at _h
  rw [_h, List.length_cons] at hs
  omega

end ClassDiagram.Member
