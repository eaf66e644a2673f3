import ClassDiagram.Source.Comment
import ClassDiagram.Text.WordChar

/-!
# Canonical spacing

Every scan for members and headers reads a dense form of the source:

* the first package clause and all import clauses are gone,
* every stretch of blanks is one space,
* no space stands next to a comma, a semicolon or a brace,
* a plain assignment has one space on each side of its sign, while comparisons
  and compound assignments keep the spaces they have,
* no space stands at either end.

`normalize` is the composition of these five steps, and none of them looks at
literals.
-/

namespace ClassDiagram.Source

/-! ## Clauses -/

/-- The text after a clause that starts here: the keyword as a word of its own,
a blank, and all up to and including the next semicolon. -/
def afterClause? (keyword : Text) (before : Option Char) (t : Text) : Option Text :=
  if before.any Text.isWordChar then none
  else
    match Text.dropPrefix? keyword t with
    | some (c :: rest) =>
      if Text.isBlank c then
        match rest.dropWhile (· != ';') with
        | _ :: after => some after
        | [] => none
      else none
    | _ => none

/-- The text without its first clause of this keyword. -/
def dropFirstClause (keyword : Text) (before : Option Char) : Text → Text
  | [] => []
  | c :: t =>
    match afterClause? keyword before (c :: t) with
    | some after => after
    | none => c :: dropFirstClause keyword (some c) t

/-- A clause is never empty. -/
theorem length_afterClause? {keyword t after : Text} {before : Option Char}
    (h : afterClause? keyword before t = some after) : after.length < t.length := by
  rw [afterClause?] at h
  split at h
  · simp at h
  · split at h
    · rename_i c rest hp
      split at h
      · split at h
        · rename_i d tail hd
          have hp := congrArg List.length (Text.dropPrefix?_eq_some_iff.1 hp)
          have hd := congrArg List.length hd
          have hs := (List.dropWhile_sublist (l := rest) (· != ';')).length_le
          simp only [Option.some.injEq] at h
          subst h
          simp only [List.length_append, List.length_cons] at hp hd
          omega
        · simp at h
      · simp at h
    · simp at h

/-- The text without any clause of this keyword. After a clause the search goes
on behind its semicolon. -/
def dropClauses (keyword : Text) (before : Option Char) : Text → Text
  | [] => []
  | c :: t =>
    match _h : afterClause? keyword before (c :: t) with
    | some after => dropClauses keyword (some ';') after
    | none => c :: dropClauses keyword (some c) t
termination_by t => t.length
decreasing_by
  · exact length_afterClause? _h
  · simp

/-! ## Blanks -/

/-- Every stretch of blanks becomes one space. -/
def collapseBlanks : Text → Text
  | [] => []
  | c :: t =>
    if Text.isBlank c then
      if t.head?.any Text.isBlank then collapseBlanks t else ' ' :: collapseBlanks t
    else c :: collapseBlanks t

/-- The marks that take no blank on either side. -/
def isTight (c : Char) : Bool := c == ',' || c == ';' || c == '{' || c == '}'

/-- The text without the blanks next to tight marks. `tight` says whether the
character before the text is one. -/
def tighten (tight : Bool) : Text → Text
  | [] => []
  | c :: t =>
    if Text.isBlank c then
      if tight || (Text.trimStart t).head?.any isTight then tighten tight t
      else c :: tighten tight t
    else c :: tighten (isTight c) t

/-! ## Assignments -/

/-- The characters that operators with an equals sign are made of. -/
def isOperator (c : Char) : Bool := "!<>=+-*/%&|^~".toList.contains c

/-- Cut an operator run at its last equals sign. -/
def cutLastEquals? : Text → Option (Text × Text)
  | [] => none
  | c :: t =>
    match cutLastEquals? t with
    | some (lead, tail) => some (c :: lead, tail)
    | none => if c == '=' then some ([], t) else none

/-- The stretch of a text at which an equals sign is spaced: the blanks before,
the operator characters before the last equals sign, the blanks after it, and
the rest of the text. -/
structure Assignment where
  gap : Text
  lead : Text
  trail : Text
  rest : Text

/-- An assignment that starts here. The operator run is taken as long as
possible and cut at its last equals sign. -/
def Assignment.here? (t : Text) : Option Assignment :=
  let gap := t.takeWhile Text.isBlank
  let afterGap := t.dropWhile Text.isBlank
  match cutLastEquals? (afterGap.takeWhile isOperator) with
  | none => none
  | some (lead, tail) =>
    let behind := tail ++ afterGap.dropWhile isOperator
    some ⟨gap, lead, behind.takeWhile Text.isBlank, behind.dropWhile Text.isBlank⟩

/-- A plain assignment has one space on each side. The sign of a comparison or a
compound assignment keeps its surroundings. -/
def Assignment.spaced (a : Assignment) : Text :=
  if a.lead.isEmpty then [' ', '=', ' '] else a.gap ++ a.lead ++ '=' :: a.trail

private theorem length_of_cutLastEquals? {t lead tail : Text}
    (h : cutLastEquals? t = some (lead, tail)) : t.length = lead.length + tail.length + 1 := by
  induction t generalizing lead tail with
  | nil => simp [cutLastEquals?] at h
  | cons c t ih =>
    rw [cutLastEquals?] at h
    split at h
    · rename_i l r hc
      simp only [Option.some.injEq, Prod.mk.injEq] at h
      obtain ⟨rfl, rfl⟩ := h
      simp only [List.length_cons, ih hc]
      omega
    · split at h
      · simp only [Option.some.injEq, Prod.mk.injEq] at h
        obtain ⟨rfl, rfl⟩ := h
        simp
      · simp at h

/-- An assignment takes at least its sign from the text. -/
theorem Assignment.length_rest {t : Text} {a : Assignment} (h : Assignment.here? t = some a) :
    a.rest.length < t.length := by
  rw [Assignment.here?] at h
  simp only at h
  split at h
  · simp at h
  · rename_i lead tail hc
    simp only [Option.some.injEq] at h
    subst h
    have hc := length_of_cutLastEquals? hc
    have h1 := congrArg List.length
      (List.takeWhile_append_dropWhile (p := Text.isBlank) (l := t))
    have h2 := congrArg List.length
      (List.takeWhile_append_dropWhile (p := isOperator) (l := t.dropWhile Text.isBlank))
    have h3 := (List.dropWhile_sublist (p := Text.isBlank)
      (l := tail ++ (t.dropWhile Text.isBlank).dropWhile isOperator)).length_le
    simp only [List.length_append] at h1 h2 h3
    simp only
    omega

/-- The text with its assignments spaced, from left to right. -/
def spaceAssignments : Text → Text
  | [] => []
  | c :: t =>
    match _h : Assignment.here? (c :: t) with
    | some a => a.spaced ++ spaceAssignments a.rest
    | none => c :: spaceAssignments t
termination_by t => t.length
decreasing_by
  · exact Assignment.length_rest _h
  · simp

/-! ## The dense form -/

/-- The dense form of a text. -/
def normalize (t : Text) : Text :=
  let unpacked := dropFirstClause "package".toList none t
  let unimported := dropClauses "import".toList none unpacked
  Text.trim (spaceAssignments (tighten false (collapseBlanks unimported)))

/-- The dense form of a source: its comments go first, so that a comment between
two words leaves them apart only if blanks do. -/
def dense (t : Text) : Text := normalize (stripComments t)

end ClassDiagram.Source
