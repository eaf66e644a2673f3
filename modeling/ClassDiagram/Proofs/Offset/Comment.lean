import ClassDiagram.Proofs.Member.Lead
import ClassDiagram.Proofs.Offset.Annotation
import ClassDiagram.Proofs.Source.Comment
import Mathlib.Data.List.Basic

/-!
# Cutting out comments

A comment is cut out of a text in place, at the offset of its marker and at the offset behind its
end, and the search goes on at the first of them. A marker has two bytes, and so has the end of a
block comment, so all these offsets are those of characters. Each round makes the text smaller, and
in the end the comments are gone (`stripComments?_eq`).
-/

namespace ClassDiagram

open Source

namespace Offset

/-! ## Offsets of needles -/

/-- The offset of the first occurrence of a needle. -/
def findText? (needle t : Text) : Option Nat :=
  (Text.cut? needle t).map fun (before, _) => Text.size before

section Find

variable {needle s t : Text} {c : Char}

theorem findText?_of_not_infix (h : ¬needle <:+: t) : findText? needle t = none := by
  rw [← Text.includes_iff, Text.includes, Bool.not_eq_true, Option.isSome_eq_false_iff,
    Option.isNone_iff_eq_none] at h
  rw [findText?, h]
  rfl

theorem findText?_of_prefix (h : needle <+: c :: t) : findText? needle (c :: t) = some 0 := by
  obtain ⟨rest, hrest⟩ := h
  rw [findText?, Text.cut?, Text.dropPrefix?_eq_some_iff.mpr hrest.symm]
  rfl

theorem findText?_of_not_prefix (h : ¬needle <+: c :: t) :
    findText? needle (c :: t) = (findText? needle t).map (c.utf8Size + ·) := by
  have hnone : Text.dropPrefix? needle (c :: t) = none := by
    rw [Option.eq_none_iff_forall_ne_some]
    intro rest hsome
    exact h ⟨rest, (Text.dropPrefix?_eq_some_iff.mp hsome).symm⟩
  rw [findText?, Text.cut?, hnone, findText?]
  cases Text.cut? needle t <;> rfl

/-- A needle of two characters that does not begin in front of a character is found behind
there. -/
theorem findText?_append (hneedle : needle.length = 2) (h : ¬needle <:+: s ++ [c]) (t : Text) :
    findText? needle (s ++ c :: t) = (findText? needle (c :: t)).map (s.size + ·) := by
  obtain ⟨a, b, rfl⟩ := List.length_eq_two.mp hneedle
  induction s with
  | nil => cases hfind : findText? [a, b] (c :: t) <;> simp [hfind]
  | cons d s ih =>
      rw [List.cons_append, List.infix_cons_iff, not_or] at h
      have hfirst : ¬[a, b] <+: d :: (s ++ c :: t) := by
        intro hprefix
        apply h.1
        cases s <;> simpa [List.cons_prefix_cons] using hprefix
      rw [List.cons_append, findText?_of_not_prefix hfirst, ih h.2, Option.map_map]
      congr 1
      funext offset
      exact (Nat.add_assoc _ _ _).symm

end Find

/-! ## One comment -/

/-- The offset of the first marker of a comment, and whether it is that of a block comment. -/
def firstMarker? (rest : Text) : Option (Nat × Bool) :=
  match findText? "//".toList rest, findText? "/*".toList rest with
  | none, none => none
  | some line, none => some (line, false)
  | none, some block => some (block, true)
  | some line, some block => if line < block then some (line, false) else some (block, true)

/-- The offset behind the comment whose marker stands at an offset. -/
def commentStop? (t : Text) (start : Nat) (isBlock : Bool) : Option Nat :=
  if isBlock then do
    let inside ← t.sliceFrom? (start + 2)
    return match findText? "*/".toList inside with
      | some close => start + 2 + close + 2
      | none => t.size
  else do
    let comment ← t.sliceFrom? start
    return match findChar? (· == '\n') comment with
      | some newline => start + newline
      | none => t.size

/-- A text without the part between two offsets. -/
def remove? (t : Text) (start stop : Nat) : Option Text := do
  let front ← t.slice? 0 start
  let _ ← t.slice? start stop
  let behind ← t.sliceFrom? stop
  return front ++ behind

/-- Take out the comments behind a cursor. A round that does not make the text smaller fails, since
the loop would not end. -/
def stripFrom? (t : Text) (cursor : Nat) : Option Text := do
  let rest ← t.sliceFrom? cursor
  match firstMarker? rest with
  | none => return t
  | some (marker, isBlock) =>
    let stop ← commentStop? t (cursor + marker) isBlock
    let after ← remove? t (cursor + marker) stop
    if after.size < t.size then stripFrom? after (cursor + marker) else none
termination_by t.size

/-- The text without its comments. -/
def stripComments? (t : Text) : Option Text := stripFrom? t 0

section Comment

variable {copied comment rest t : Text}

theorem firstMarker?_of_unmarked (h : Unmarked t) : firstMarker? t = none := by
  rw [firstMarker?, findText?_of_not_infix h.1, findText?_of_not_infix h.2]

theorem firstMarker?_line (hcopied : Unmarked (copied ++ ['/'])) (t : Text) :
    firstMarker? (copied ++ '/' :: '/' :: t) = some (copied.size, false) := by
  have hline : findText? "//".toList (copied ++ '/' :: '/' :: t) = some copied.size := by
    rw [findText?_append rfl hcopied.1, findText?_of_prefix (List.prefix_append _ t)]
    rfl
  have hblock : findText? "/*".toList (copied ++ '/' :: '/' :: t) =
      (findText? "/*".toList ('/' :: t)).map fun offset => copied.size + (1 + offset) := by
    rw [findText?_append rfl hcopied.2, findText?_of_not_prefix (by simp [List.cons_prefix_cons]),
      Option.map_map]
    rfl
  rw [firstMarker?, hline, hblock]
  cases findText? "/*".toList ('/' :: t) with
  | none => rfl
  | some block => exact if_pos (show copied.size < copied.size + (1 + block) by omega)

theorem firstMarker?_block (hcopied : Unmarked (copied ++ ['/'])) (t : Text) :
    firstMarker? (copied ++ '/' :: '*' :: t) = some (copied.size, true) := by
  have hline : findText? "//".toList (copied ++ '/' :: '*' :: t) =
      (findText? "//".toList ('*' :: t)).map fun offset => copied.size + (1 + offset) := by
    rw [findText?_append rfl hcopied.1, findText?_of_not_prefix (by simp [List.cons_prefix_cons]),
      Option.map_map]
    rfl
  have hblock : findText? "/*".toList (copied ++ '/' :: '*' :: t) = some copied.size := by
    rw [findText?_append rfl hcopied.2, findText?_of_prefix (List.prefix_append _ t)]
    rfl
  rw [firstMarker?, hline, hblock]
  cases findText? "//".toList ('*' :: t) with
  | none => rfl
  | some line => exact if_neg (show ¬copied.size + (1 + line) < copied.size by omega)

/-- A line comment ends in front of a line feed, or with the text. -/
theorem commentStop?_line {body : Text} (hbody : '\n' ∉ body)
    (hrest : rest.head?.all (· == '\n') = true) (front : Text) :
    commentStop? (front ++ ('/' :: '/' :: body ++ rest)) front.size false =
      some (front.size + Text.size ('/' :: '/' :: body)) := by
  have hcomment : Text.sliceFrom? (front ++ ('/' :: '/' :: body ++ rest)) front.size =
      some ('/' :: '/' :: body ++ rest) := Text.sliceFrom?_part _ _ rfl
  have hbefore : ∀ c ∈ '/' :: '/' :: body, (!(c == '\n')) = true := by
    simpa using fun c hc => ne_of_mem_of_not_mem hc hbody
  have hbehind : rest.head?.any (!· == '\n') = false := by
    cases rest with
    | nil => rfl
    | cons c rest => simpa using hrest
  simp only [commentStop?, hcomment, Option.bind_eq_bind, Option.bind_some]
  rw [findChar?_eq, Text.takeWhile_stretch hbefore hbehind, Text.dropWhile_stretch hbefore hbehind]
  cases rest with
  | nil => exact congrArg some (by rw [List.append_nil, Text.size_append]; rfl)
  | cons c rest => rfl

theorem sliceFrom?_inside (front body : Text) :
    Text.sliceFrom? (front ++ '/' :: '*' :: body) (front.size + 2) = some body := by
  rw [List.append_cons, List.append_cons]
  exact Text.sliceFrom?_part _ body (by simp; rfl)

/-- A block comment ends behind its last mark. -/
theorem commentStop?_block {body : Text} (hbody : ¬"*/".toList <:+: body ++ ['*'])
    (front rest : Text) :
    commentStop? (front ++ ('/' :: '*' :: (body ++ "*/".toList) ++ rest)) front.size true =
      some (front.size + Text.size ('/' :: '*' :: (body ++ "*/".toList))) := by
  have hsource : front ++ ('/' :: '*' :: (body ++ "*/".toList) ++ rest) =
      front ++ '/' :: '*' :: (body ++ ("*/".toList ++ rest)) := by
    rw [List.cons_append, List.cons_append, List.append_assoc]
  have hclose : findText? "*/".toList (body ++ ("*/".toList ++ rest)) = some body.size := by
    have hmark : findText? "*/".toList ('*' :: '/' :: rest) = some 0 :=
      findText?_of_prefix (List.prefix_append _ rest)
    have hbehind := findText?_append rfl hbody ('/' :: rest)
    rw [hmark] at hbehind
    exact hbehind
  simp only [commentStop?, hsource, sliceFrom?_inside, hclose, Option.bind_eq_bind,
    Option.bind_some]
  refine congrArg some ?_
  have hsize : Text.size ('/' :: '*' :: (body ++ "*/".toList)) = 1 + (1 + (body.size + 2)) := by
    rw [Text.size_cons, Text.size_cons, Text.size_append]
    rfl
  omega

theorem commentStop?_unclosed {body : Text} (hbody : ¬"*/".toList <:+: body) (front : Text) :
    commentStop? (front ++ '/' :: '*' :: body) front.size true =
      some (front.size + Text.size ('/' :: '*' :: body)) := by
  simp only [commentStop?, sliceFrom?_inside, findText?_of_not_infix hbody, Option.bind_eq_bind,
    Option.bind_some]
  exact congrArg some (Text.size_append _ _)

/-- The first comment of a text is found. -/
theorem firstMarker?_comment (hcopied : Unmarked (copied ++ ['/']))
    (hcomment : IsComment comment rest) (front : Text) :
    ∃ isBlock, firstMarker? (copied ++ (comment ++ rest)) = some (copied.size, isBlock) ∧
      commentStop? (front ++ copied ++ (comment ++ rest)) (front ++ copied).size isBlock =
        some ((front ++ copied).size + comment.size) := by
  cases hcomment with
  | line hbody hrest =>
      exact ⟨false, firstMarker?_line hcopied _, commentStop?_line hbody hrest _⟩
  | block hbody => exact ⟨true, firstMarker?_block hcopied _, commentStop?_block hbody _ _⟩
  | unclosed hbody =>
      rw [List.append_nil]
      exact ⟨true, firstMarker?_block hcopied _, commentStop?_unclosed hbody _⟩

/-- A part of a text is taken out between its ends. -/
theorem remove?_part (front part behind : Text) :
    remove? (front ++ (part ++ behind)) front.size (front.size + part.size) =
      some (front ++ behind) := by
  have hfront : Text.slice? (front ++ (part ++ behind)) 0 front.size = some front :=
    Text.slice?_part [] front _ rfl (Nat.zero_add _)
  have hpart : Text.slice? (front ++ (part ++ behind)) front.size (front.size + part.size) =
      some part :=
    Text.slice?_part front part behind rfl rfl
  have hbehind : Text.sliceFrom? (front ++ (part ++ behind)) (front.size + part.size) =
      some behind := by
    rw [← List.append_assoc]
    exact Text.sliceFrom?_part _ behind (Text.size_append _ _)
  simp only [remove?, hfront, hpart, hbehind]
  rfl

/-- The comments behind a cursor are taken out. -/
theorem stripFrom?_eq (front t : Text) :
    stripFrom? (front ++ t) front.size = some (front ++ stripComments t) := by
  induction hlength : t.length using Nat.strongRecOn generalizing front t with
  | ind n ih =>
      have hrest : Text.sliceFrom? (front ++ t) front.size = some t := Text.sliceFrom?_part _ _ rfl
      rw [stripFrom?, hrest]
      dsimp only [Option.bind_eq_bind, Option.bind_some]
      rcases unmarked_or_comment t with h | ⟨copied, comment, rest, rfl, hcopied, hcomment⟩
      · rw [firstMarker?_of_unmarked h, stripComments_eq_self h]
        rfl
      · obtain ⟨isBlock, hmarker, hstop⟩ := firstMarker?_comment hcopied hcomment front
        have hless := hcomment.length_lt
        have hsmaller : Text.size (front ++ copied ++ rest) <
            Text.size (front ++ copied ++ (comment ++ rest)) := by
          have hpos : 0 < comment.size := by
            refine Nat.pos_of_ne_zero fun hzero => ?_
            rw [Text.size_eq_zero hzero] at hless
            exact Nat.lt_irrefl _ hless
          rw [Text.size_append, Text.size_append _ (comment ++ rest), Text.size_append comment]
          omega
        have hshorter : rest.length < n := by
          rw [← hlength, List.length_append]
          omega
        rw [hmarker]
        dsimp only
        rw [← Text.size_append, ← List.append_assoc front copied, hstop]
        dsimp only [Option.bind_some]
        rw [remove?_part, Option.bind_some, if_pos hsmaller, ih _ hshorter _ _ rfl,
          stripComments_copied hcopied, hcomment.stripComments_append, List.append_assoc]

end Comment

/-- The comments of a text are cut out. -/
theorem stripComments?_eq (t : Text) : stripComments? t = some (stripComments t) :=
  stripFrom?_eq [] t

end Offset

end ClassDiagram
