import ClassDiagram.Catalogue.Braces
import ClassDiagram.Proofs.Source.Clause

/-!
# The spacing of a text, mark by mark

The steps between the clauses and the final trimming arrange the blanks of a text.
An inert character is copied, a tight mark swallows the blanks on both of its sides,
and a space between inert characters stays, as do the two around an assignment. So
the arrangement of a text is read off from its front, with one bit of memory: whether
a tight mark was last.
-/

namespace ClassDiagram.Source

/-- The text with its blanks in canonical places. `tight` says whether the character
before it is a tight mark. -/
def arrange (tight : Bool) (t : Text) : Text :=
  spaceAssignments (tighten tight (collapseBlanks t))

/-! ## Copied characters -/

/-- A character that is no blank, no tight mark and no part of an operator. -/
def isInert (c : Char) : Bool := !Text.isBlank c && !isTight c && !isOperator c

section Character

variable {c : Char}

theorem isBlank_of_isInert (h : isInert c = true) : Text.isBlank c = false := by
  simp only [isInert, Bool.and_eq_true, Bool.not_eq_true'] at h
  exact h.1.1

theorem isTight_of_isInert (h : isInert c = true) : isTight c = false := by
  simp only [isInert, Bool.and_eq_true, Bool.not_eq_true'] at h
  exact h.1.2

theorem isOperator_of_isInert (h : isInert c = true) : isOperator c = false := by
  simp only [isInert, Bool.and_eq_true, Bool.not_eq_true'] at h
  exact h.2

theorem isTight_cases (h : isTight c = true) : c = ',' ∨ c = ';' ∨ c = '{' ∨ c = '}' := by
  simp only [isTight, Bool.or_eq_true, beq_iff_eq] at h
  obtain ((h | h) | h) | h := h
  · exact .inl h
  · exact .inr (.inl h)
  · exact .inr (.inr (.inl h))
  · exact .inr (.inr (.inr h))

theorem isBlank_of_isTight (h : isTight c = true) : Text.isBlank c = false := by
  obtain rfl | rfl | rfl | rfl := isTight_cases h <;> rfl

theorem isOperator_of_isTight (h : isTight c = true) : isOperator c = false := by
  obtain rfl | rfl | rfl | rfl := isTight_cases h <;> rfl

theorem isWordChar_of_isTight (h : isTight c = true) : Text.isWordChar c = false := by
  obtain rfl | rfl | rfl | rfl := isTight_cases h <;> rfl

theorem isInert_of_isWordChar (h : Text.isWordChar c = true) : isInert c = true := by
  have hoperator : isOperator c = false := by
    rw [isOperator, ← Bool.not_eq_true, List.contains_iff_mem]
    intro hmem
    have hmarks : ∀ d ∈ "!<>=+-*/%&|^~".toList, Text.isWordChar d = false :=
      Text.forall_mem_of_all rfl
    rw [hmarks c hmem] at h
    cases h
  have htight : isTight c = false := by
    rw [← Bool.not_eq_true]
    intro hmark
    obtain rfl | rfl | rfl | rfl := isTight_cases hmark <;> cases h
  rw [isInert, Text.isBlank_of_isWordChar h, htight, hoperator]
  rfl

end Character

/-! ## The steps at one character -/

theorem collapseBlanks_cons {c : Char} (hc : Text.isBlank c = false) (t : Text) :
    collapseBlanks (c :: t) = c :: collapseBlanks t := by
  rw [collapseBlanks, if_neg (Bool.eq_false_iff.mp hc)]

theorem tighten_cons {c : Char} (hc : Text.isBlank c = false) (tight : Bool) (t : Text) :
    tighten tight (c :: t) = c :: tighten (isTight c) t := by
  rw [tighten, if_neg (Bool.eq_false_iff.mp hc)]

theorem tighten_true_blank {c : Char} (hc : Text.isBlank c = true) (t : Text) :
    tighten true (c :: t) = tighten true t := by
  rw [tighten, if_pos hc, if_pos (by simp)]

theorem Assignment.here?_eq_none {t : Text}
    (h : cutLastEquals? ((t.dropWhile Text.isBlank).takeWhile isOperator) = none) :
    Assignment.here? t = none := by
  rw [Assignment.here?]
  simp only [h]

theorem spaceAssignments_nil : spaceAssignments [] = [] := by
  rw [spaceAssignments.eq_def]

theorem spaceAssignments_cons_none {c : Char} {t : Text}
    (h : Assignment.here? (c :: t) = none) :
    spaceAssignments (c :: t) = c :: spaceAssignments t := by
  rw [spaceAssignments.eq_def]
  dsimp only
  split
  · rename_i a ha
    rw [h] at ha
    cases ha
  · rfl

theorem spaceAssignments_cons_some {c : Char} {t : Text} {a : Assignment}
    (h : Assignment.here? (c :: t) = some a) :
    spaceAssignments (c :: t) = a.spaced ++ spaceAssignments a.rest := by
  rw [spaceAssignments.eq_def]
  dsimp only
  split
  · rename_i other hother
    rw [h] at hother
    cases hother
    rfl
  · rename_i hnone
    rw [h] at hnone
    cases hnone

/-- No assignment starts at a character that is neither blank nor operator. -/
theorem spaceAssignments_cons {c : Char} (hblank : Text.isBlank c = false)
    (hoperator : isOperator c = false) (t : Text) :
    spaceAssignments (c :: t) = c :: spaceAssignments t := by
  refine spaceAssignments_cons_none (Assignment.here?_eq_none ?_)
  rw [List.dropWhile_cons_of_neg (by simp [hblank]),
    List.takeWhile_cons_of_neg (by simp [hoperator])]
  rfl

/-! ## The arrangement at one character -/

section Arrange

variable {tight : Bool} {c d : Char}

theorem arrange_nil : arrange tight [] = [] := spaceAssignments_nil

theorem arrange_inert (hc : isInert c = true) (t : Text) :
    arrange tight (c :: t) = c :: arrange false t := by
  have hblank := isBlank_of_isInert hc
  rw [arrange, collapseBlanks_cons hblank, tighten_cons hblank, isTight_of_isInert hc,
    spaceAssignments_cons hblank (isOperator_of_isInert hc), arrange]

theorem arrange_stretch {s : Text} (hs : ∀ c ∈ s, isInert c = true) (t : Text) :
    arrange false (s ++ t) = s ++ arrange false t := by
  induction s with
  | nil => rfl
  | cons c s ih =>
      rw [List.cons_append, arrange_inert (hs c (by simp)),
        ih fun d hd => hs d (List.mem_cons_of_mem _ hd), List.cons_append]

/-- What a tight mark does to the text behind it ends with the next word. -/
theorem arrange_word {w : Text} (hw : Text.IsWord w) (t : Text) :
    arrange tight (w ++ t) = w ++ arrange false t := by
  obtain ⟨hne, hchars⟩ := hw
  cases w with
  | nil => exact absurd rfl hne
  | cons c w =>
      rw [List.cons_append, arrange_inert (isInert_of_isWordChar (hchars c (by simp))),
        arrange_stretch fun d hd =>
          isInert_of_isWordChar (hchars d (List.mem_cons_of_mem _ hd)), List.cons_append]

theorem arrange_mark (hc : isTight c = true) (t : Text) :
    arrange tight (c :: t) = c :: arrange true t := by
  have hblank := isBlank_of_isTight hc
  rw [arrange, collapseBlanks_cons hblank, tighten_cons hblank, hc,
    spaceAssignments_cons hblank (isOperator_of_isTight hc), arrange]

/-- Blanks behind a tight mark go. -/
theorem arrange_space_behind (t : Text) : arrange true (' ' :: t) = arrange true t := by
  have hspace : Text.isBlank ' ' = true := rfl
  rw [arrange, collapseBlanks, if_pos hspace]
  split
  · rfl
  · rw [tighten_true_blank hspace, arrange]

/-- A space in front of a tight mark goes. -/
theorem arrange_space_before (hc : isTight c = true) (t : Text) :
    arrange tight (' ' :: c :: t) = arrange tight (c :: t) := by
  have hspace : Text.isBlank ' ' = true := rfl
  have hblank := isBlank_of_isTight hc
  have hcollapse : collapseBlanks (' ' :: c :: t) = ' ' :: collapseBlanks (c :: t) := by
    rw [collapseBlanks, if_pos hspace, if_neg (by simp [hblank])]
  have htighten : tighten tight (' ' :: collapseBlanks (c :: t)) =
      tighten tight (collapseBlanks (c :: t)) := by
    rw [tighten, if_pos hspace, if_pos]
    rw [collapseBlanks_cons hblank, Text.trimStart,
      List.dropWhile_cons_of_neg (Bool.eq_false_iff.mp hblank)]
    simp [hc]
  rw [arrange, hcollapse, htighten, arrange]

/-- A space in front of anything else stays, unless a tight mark was last. -/
theorem tighten_collapse_space (hblank : Text.isBlank d = false) (htight : isTight d = false)
    (t : Text) :
    tighten false (collapseBlanks (' ' :: d :: t)) =
      ' ' :: tighten false (collapseBlanks (d :: t)) := by
  have hspace : Text.isBlank ' ' = true := rfl
  rw [collapseBlanks, if_pos hspace, if_neg (by simp [hblank]), tighten, if_pos hspace, if_neg]
  rw [collapseBlanks_cons hblank, Text.trimStart,
    List.dropWhile_cons_of_neg (Bool.eq_false_iff.mp hblank)]
  simp [htight]

theorem arrange_space (hd : isInert d = true) (t : Text) :
    arrange false (' ' :: d :: t) = ' ' :: arrange false (d :: t) := by
  have hblank := isBlank_of_isInert hd
  rw [arrange, tighten_collapse_space hblank (isTight_of_isInert hd), collapseBlanks_cons hblank,
    tighten_cons hblank, spaceAssignments_cons_none, arrange, collapseBlanks_cons hblank,
    tighten_cons hblank]
  refine Assignment.here?_eq_none ?_
  rw [List.dropWhile_cons_of_pos rfl, List.dropWhile_cons_of_neg (Bool.eq_false_iff.mp hblank),
    List.takeWhile_cons_of_neg (Bool.eq_false_iff.mp (isOperator_of_isInert hd))]
  rfl

theorem Assignment.here?_plain (hblank : Text.isBlank d = false) (t : Text) :
    Assignment.here? (' ' :: '=' :: ' ' :: d :: t) = some ⟨[' '], [], [' '], d :: t⟩ := by
  have hspace : Text.isBlank ' ' = true := rfl
  have hequals : Text.isBlank '=' = false := rfl
  have hoperator : isOperator '=' = true := rfl
  have hend : isOperator ' ' = false := rfl
  simp [Assignment.here?, cutLastEquals?, hspace, hequals, hoperator, hend, hblank]

/-- An assignment with a space on each side stays as it is. -/
theorem arrange_assignment (hd : isInert d = true) (t : Text) :
    arrange false (' ' :: '=' :: ' ' :: d :: t) = ' ' :: '=' :: ' ' :: arrange false (d :: t) := by
  have hequals : Text.isBlank '=' = false := rfl
  have hmark : isTight '=' = false := rfl
  have hblank := isBlank_of_isInert hd
  rw [arrange, tighten_collapse_space hequals hmark, collapseBlanks_cons hequals,
    tighten_cons hequals, hmark, tighten_collapse_space hblank (isTight_of_isInert hd),
    collapseBlanks_cons hblank, tighten_cons hblank,
    spaceAssignments_cons_some (Assignment.here?_plain hblank _), arrange,
    collapseBlanks_cons hblank, tighten_cons hblank]
  rfl

end Arrange

/-! ## A space in front of any text -/

section Space

variable {c d : Char}

/-- A stretch of blanks is one space, whatever follows it. -/
theorem collapseBlanks_blank (hc : Text.isBlank c = true) (t : Text) :
    collapseBlanks (c :: t) = ' ' :: collapseBlanks (Text.trimStart t) := by
  induction t generalizing c with
  | nil =>
      rw [collapseBlanks, if_pos hc]
      rfl
  | cons d t ih =>
      rw [collapseBlanks, if_pos hc, List.head?_cons, Option.any_some]
      cases hd : Text.isBlank d with
      | true =>
          rw [if_pos rfl, ih hd, Text.trimStart, Text.trimStart, List.dropWhile_cons_of_pos hd]
      | false =>
          rw [if_neg (by simp), Text.trimStart,
            List.dropWhile_cons_of_neg (Bool.eq_false_iff.mp hd)]

/-- A space in front of an assignment becomes a part of it. -/
theorem Assignment.here?_space (hd : Text.isBlank d = false) (t : Text) :
    Assignment.here? (' ' :: d :: t) =
      (Assignment.here? (d :: t)).map fun a => { a with gap := [' '] } := by
  have hspace : Text.isBlank ' ' = true := rfl
  simp only [Assignment.here?, List.takeWhile_cons, List.dropWhile_cons, hspace, hd]
  simp only [if_true, Bool.false_eq_true, if_false]
  split
  · rfl
  · rfl

theorem Assignment.gap_of_here? (hd : Text.isBlank d = false) {t : Text} {a : Assignment}
    (h : Assignment.here? (d :: t) = some a) : a.gap = [] := by
  simp only [Assignment.here?, List.takeWhile_cons, hd, Bool.false_eq_true, if_false] at h
  split at h
  · cases h
  · cases h
    rfl

/-- The first character of an operator is no blank. -/
theorem Assignment.trimStart_spaced {a : Assignment} {t : Text}
    (h : Assignment.here? (d :: t) = some a) (hd : Text.isBlank d = false) (rest : Text) :
    ' ' :: Text.trimStart (a.spaced ++ rest) =
      ({ a with gap := [' '] } : Assignment).spaced ++ rest := by
  have hsource := Assignment.source_here? h
  have hgap := Assignment.gap_of_here? hd h
  rw [hgap, List.nil_append] at hsource
  unfold Assignment.spaced
  cases hlead : a.lead with
  | nil => rfl
  | cons e lead =>
      rw [hlead, List.cons_append] at hsource
      cases hsource
      simp [hgap, Text.trimStart, hd]

/-- A space in front of a text without blanks at its front stays, and an assignment
there takes no second one. -/
theorem spaceAssignments_space (hd : Text.isBlank d = false) (t : Text) :
    spaceAssignments (' ' :: d :: t) = ' ' :: Text.trimStart (spaceAssignments (d :: t)) := by
  cases h : Assignment.here? (d :: t) with
  | none =>
      rw [spaceAssignments_cons_none (by rw [Assignment.here?_space hd, h]; rfl),
        spaceAssignments_cons_none h, Text.trimStart,
        List.dropWhile_cons_of_neg (Bool.eq_false_iff.mp hd)]
  | some a =>
      have hspace : Assignment.here? (' ' :: d :: t) = some { a with gap := [' '] } := by
        rw [Assignment.here?_space hd, h]
        rfl
      rw [spaceAssignments_cons_some hspace, spaceAssignments_cons_some h,
        Assignment.trimStart_spaced h hd]

theorem spaceAssignments_lone_space : spaceAssignments [' '] = [' '] := by
  rw [spaceAssignments_cons_none rfl, spaceAssignments_nil]

/-- The space that is left between a word and a text that follows it behind a blank. -/
def gapBefore (t : Text) : Text :=
  if (Text.trimStart t).head?.any isTight then [] else [' ']

theorem arrange_blank (hc : Text.isBlank c = true) (t : Text) :
    arrange false (c :: t) = gapBefore t ++ Text.trimStart (arrange false (Text.trimStart t)) := by
  have hspace : Text.isBlank ' ' = true := rfl
  have hcollapse : collapseBlanks (c :: t) = collapseBlanks (' ' :: Text.trimStart t) := by
    rw [collapseBlanks_blank hc, collapseBlanks_blank hspace, Text.trimStart_trimStart]
  rw [arrange, hcollapse, gapBefore]
  cases h : Text.trimStart t with
  | nil =>
      apply spaceAssignments_lone_space.trans
      rw [arrange_nil]
      rfl
  | cons d rest =>
      have hd : Text.isBlank d = false := by simpa [h] using Text.head?_trimStart t
      rw [List.head?_cons, Option.any_some]
      cases htight : isTight d with
      | true =>
          have hbefore : arrange false (' ' :: d :: rest) = arrange false (d :: rest) :=
            arrange_space_before htight rest
          rw [arrange] at hbefore
          rw [if_pos rfl, hbefore, arrange_mark htight, Text.trimStart,
            List.dropWhile_cons_of_neg (Bool.eq_false_iff.mp hd), List.nil_append]
      | false =>
          rw [if_neg (by simp), tighten_collapse_space hd htight, collapseBlanks_cons hd,
            tighten_cons hd, spaceAssignments_space hd, arrange, collapseBlanks_cons hd,
            tighten_cons hd]
          rfl

/-- Blanks at the front of a text come to nothing but blanks. -/
theorem trimStart_arrange (t : Text) :
    Text.trimStart (arrange false t) = Text.trimStart (arrange false (Text.trimStart t)) := by
  cases t with
  | nil => rfl
  | cons c t =>
      cases hc : Text.isBlank c with
      | false => rw [Text.trimStart_of_head? (t := c :: t) (by simpa using hc)]
      | true =>
          rw [arrange_blank hc, Text.trimStart_blank hc, gapBefore]
          split
          · rw [List.nil_append, Text.trimStart_trimStart]
          · rw [List.singleton_append, Text.trimStart_blank rfl, Text.trimStart_trimStart]

end Space

/-! ## Clauses and spacing at once -/

/-- The text without clauses and with its blanks in canonical places. -/
def settle (tight : Bool) (t : Text) : Text := arrange tight (dropAllClauses t)

theorem dense_eq (t : Text) : dense t = Text.trim (settle false (stripComments t)) := rfl

section Settle

variable {tight : Bool} {c : Char} {w : Text}

@[simp] theorem settle_nil : settle tight [] = [] := by
  rw [settle, dropAllClauses_nil, arrange_nil]

theorem settle_mark (hc : isTight c = true) (t : Text) :
    settle tight (c :: t) = c :: settle true t := by
  have hword : Text.isWordChar c = false := by
    obtain rfl | rfl | rfl | rfl := isTight_cases hc <;> rfl
  rw [settle, dropAllClauses_mark hword, arrange_mark hc, settle]

theorem settle_inert (hc : isInert c = true) (hword : Text.isWordChar c = false) (t : Text) :
    settle tight (c :: t) = c :: settle false t := by
  rw [settle, dropAllClauses_mark hword, arrange_inert hc, settle]

/-- The next character does not go on with a word, and a blank does not make the word
open a clause. -/
def EndsWord (w t : Text) : Prop :=
  t.head?.any Text.isWordChar = false ∧ (t.head?.any Text.isBlank = true → opensClause w = false)

theorem endsWord_mark (hword : Text.isWordChar c = false) (hblank : Text.isBlank c = false)
    (t : Text) : EndsWord w (c :: t) := by
  refine ⟨hword, fun h => ?_⟩
  rw [List.head?_cons, Option.any_some, hblank] at h
  cases h

theorem settle_word (hw : Text.IsWord w) {t : Text} (ht : EndsWord w t) :
    settle tight (w ++ t) = w ++ settle false t := by
  rw [settle, dropAllClauses_word hw ht.1 ht.2, arrange_word hw, settle]

theorem settle_space_word (hw : Text.IsWord w) {t : Text} (ht : EndsWord w t) :
    settle false (' ' :: (w ++ t)) = ' ' :: (w ++ settle false t) := by
  rw [settle, dropAllClauses_mark rfl, dropAllClauses_word hw ht.1 ht.2]
  obtain ⟨hne, hchars⟩ := hw
  cases w with
  | nil => exact absurd rfl hne
  | cons c w =>
      have hc := isInert_of_isWordChar (hchars c (by simp))
      rw [List.cons_append, arrange_space hc, ← List.cons_append, arrange_word ⟨hne, hchars⟩,
        settle]

theorem settle_assignment_word (hw : Text.IsWord w) {t : Text} (ht : EndsWord w t) :
    settle false (' ' :: '=' :: ' ' :: (w ++ t)) =
      ' ' :: '=' :: ' ' :: (w ++ settle false t) := by
  rw [settle, dropAllClauses_mark rfl, dropAllClauses_mark rfl, dropAllClauses_mark rfl,
    dropAllClauses_word hw ht.1 ht.2]
  obtain ⟨hne, hchars⟩ := hw
  cases w with
  | nil => exact absurd rfl hne
  | cons c w =>
      have hc := isInert_of_isWordChar (hchars c (by simp))
      rw [List.cons_append, arrange_assignment hc, ← List.cons_append,
        arrange_word ⟨hne, hchars⟩, settle]

theorem settle_space_behind (t : Text) : settle true (' ' :: t) = settle true t := by
  rw [settle, dropAllClauses_mark rfl, arrange_space_behind, settle]

theorem settle_space_before (hc : isTight c = true) (t : Text) :
    settle tight (' ' :: c :: t) = settle tight (c :: t) := by
  have hword : Text.isWordChar c = false := by
    obtain rfl | rfl | rfl | rfl := isTight_cases hc <;> rfl
  rw [settle, dropAllClauses_mark rfl, dropAllClauses_mark hword, arrange_space_before hc, settle,
    dropAllClauses_mark hword]

end Settle

/-! ## The dense form behind a front -/

/-- A text behind a front and a space has its own dense form there. The space stays
unless a tight mark is first. -/
theorem dense_behind {front settled : Text} (hslash : '/' ∉ front)
    (hfront : ∀ t, settle false (front ++ t) = settled ++ settle false t)
    (hne : settled ≠ []) (hfirst : settled.head?.any Text.isBlank = false) {t : Text}
    (ht : dense t ≠ []) :
    ∃ gap, (gap = [' '] ∨ gap = [] ∧ (dense t).head?.any isTight = true) ∧
      dense (front ++ ' ' :: t) = settled ++ (gap ++ dense t) := by
  have hspace : settle false (' ' :: stripComments t) =
      gapBefore (dropAllClauses (stripComments t)) ++
        Text.trimStart (settle false (stripComments t)) := by
    rw [settle, dropAllClauses_mark rfl, arrange_blank rfl, ← trimStart_arrange, settle]
  have hdense : dense t = Text.trimEnd (Text.trimStart (settle false (stripComments t))) := rfl
  have htrim (gap : Text) : Text.trim (settled ++ (gap ++
      Text.trimStart (settle false (stripComments t)))) = settled ++ (gap ++ dense t) := by
    rw [hdense] at ht ⊢
    rw [Text.trim, Text.trimStart_of_head?, ← List.append_assoc, Text.trimEnd_append ht,
      List.append_assoc]
    cases settled with
    | nil => exact absurd rfl hne
    | cons c settled => exact hfirst
  refine ⟨gapBefore (dropAllClauses (stripComments t)), ?_, ?_⟩
  · rw [gapBefore]
    split
    · rename_i htight
      refine .inr ⟨rfl, ?_⟩
      rw [hdense, settle, trimStart_arrange]
      cases h : Text.trimStart (dropAllClauses (stripComments t)) with
      | nil => simp [h] at htight
      | cons d rest =>
          have hd : isTight d = true := by simpa [h] using htight
          have hblank := isBlank_of_isTight hd
          rw [arrange_mark hd, Text.trimStart_of_head? (by simpa using hblank),
            Text.trimEnd_cons hblank, List.head?_cons, Option.any_some, hd]
    · exact .inl rfl
  · rw [dense_eq, stripComments_append hslash, stripComments_cons (by decide), hfront, hspace,
      htrim]

end ClassDiagram.Source
