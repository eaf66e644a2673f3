import ClassDiagram.Proofs.Source.Phrase
import ClassDiagram.Proofs.Source.Split

/-!
# Annotations in the middle of a source

A source may be cut where no comment and no clause goes on over the cut (`Closed`). If a
tight mark is last in front of the cut, the dense text falls into those of the two parts
(`dense_append`), and an annotation written at the cut stands between them in its dense
spelling (`dense_append_annotation`).
-/

namespace ClassDiagram.Source

/-! ## Clauses behind a cut -/

/-- The text without its import clauses, and without its first package clause unless one
stood before the text. -/
def dropLater (packaged : Bool) (t : Text) : Text :=
  if packaged then dropClauses "import".toList none t else dropAllClauses t

/-- Texts behind which whatever follows is read as if it stood alone: no comment and no
clause goes on over the end. -/
def Closed (s : Text) : Prop :=
  ∃ packaged, ∀ t, dropAllClauses (stripComments (s ++ t)) =
    dropAllClauses (stripComments s) ++ dropLater packaged (stripComments t)

section Later

variable {packaged : Bool}

theorem dropLater_mark {c : Char} (hc : Text.isWordChar c = false) (t : Text) :
    dropLater packaged (c :: t) = c :: dropLater packaged t := by
  cases packaged with
  | true => exact (copies_dropClauses _).mark_cons (by decide) hc none t
  | false => exact dropAllClauses_mark hc t

/-- A word opens no clause when no blank follows. -/
theorem dropLater_word {w t : Text} (hw : Text.IsWord w)
    (hword : t.head?.any Text.isWordChar = false) (hblank : t.head?.any Text.isBlank = false) :
    dropLater packaged (w ++ t) = w ++ dropLater packaged t := by
  have hne {p : Prop} (h : t.head?.any Text.isBlank = true) : p := by
    rw [hblank] at h
    cases h
  cases packaged with
  | true => exact (copies_dropClauses _).word (by decide) hw hword hne
  | false => exact dropAllClauses_word hw hword hne

theorem dropLater_list (spelling : Spelling) {ws : List Text} (hws : ∀ w ∈ ws, Text.IsWord w)
    {c : Char} (hword : Text.isWordChar c = false) (hblank : Text.isBlank c = false) (t : Text) :
    dropLater packaged ((',' :: spelling.gap).intercalate ws ++ c :: t) =
      (',' :: spelling.gap).intercalate ws ++ c :: dropLater packaged t := by
  have hgap (u : Text) : dropLater packaged (spelling.gap ++ u) =
      spelling.gap ++ dropLater packaged u := by
    cases spelling with
    | printed => exact dropLater_mark rfl u
    | dense => rfl
  induction ws with
  | nil => exact dropLater_mark hword t
  | cons w ws ih =>
      have hw := hws w (by simp)
      cases ws with
      | nil =>
          rw [List.intercalate_singleton, dropLater_word (t := c :: t) hw hword hblank,
            dropLater_mark hword]
      | cons v ws =>
          have hrest := ih fun u hu => hws u (List.mem_cons_of_mem _ hu)
          rw [List.intercalate_cons_cons, List.append_assoc, List.append_assoc, List.cons_append,
            dropLater_word hw rfl rfl, dropLater_mark rfl, hgap, hrest]
          simp

theorem dropLater_braced (spelling : Spelling) {ws : List Text} (hws : ∀ w ∈ ws, Text.IsWord w)
    {c : Char} (hword : Text.isWordChar c = false) (t : Text) :
    dropLater packaged (braced spelling ws ++ c :: t) =
      braced spelling ws ++ c :: dropLater packaged t := by
  rw [braced, List.cons_append, dropLater_mark rfl, List.append_assoc, List.singleton_append,
    dropLater_list spelling hws rfl rfl, dropLater_mark hword]
  simp

end Later

/-- A text in which no comment and no clause begins is closed behind a mark. -/
theorem closed_of_kept {s : Text} {mark : Char} (hmark : isTight mark = true)
    (hs : isKept none s = true) : Closed (s ++ [mark]) := by
  refine ⟨false, fun t => ?_⟩
  have hfirst : dropAllClauses (stripComments (s ++ [mark])) = s ++ [mark] := by
    rw [stripComments_kept hmark hs, dropAllClauses_kept hmark hs, stripComments,
      dropAllClauses_nil]
  rw [hfirst, List.append_assoc, List.singleton_append, stripComments_kept hmark hs,
    dropAllClauses_kept hmark hs, List.append_assoc, List.singleton_append]
  rfl

/-! ## Spacing behind a cut -/

/-- Blanks behind a tight mark go. -/
theorem arrange_trimStart (t : Text) : arrange true (Text.trimStart t) = arrange true t := by
  cases t with
  | nil => rfl
  | cons c t =>
      cases hc : Text.isBlank c with
      | false => rw [Text.trimStart_of_head? (t := c :: t) (by simpa using hc)]
      | true =>
          rw [Text.trimStart_blank hc, arrange, arrange, collapseBlanks_blank hc,
            tighten_true_blank rfl]

theorem arrange_blanks {s : Text} (hs : ∀ c ∈ s, Text.isBlank c = true) (t : Text) :
    arrange true (s ++ t) = arrange true t := by
  rw [← arrange_trimStart, Text.trimStart_append_of_blank hs, arrange_trimStart]

/-- What a tight mark was last changes nothing in front of a character that is no blank. -/
theorem arrange_true_eq {t : Text} (ht : t.head?.any Text.isBlank = false) :
    arrange true t = arrange false t := by
  cases t with
  | nil => rfl
  | cons c t =>
      have hc : Text.isBlank c = false := ht
      rw [arrange, arrange, collapseBlanks_cons hc, tighten_cons hc, tighten_cons hc]

/-- The last character apart from blanks is the last one in front of the blanks at the end. -/
theorem exists_trimEnd_of_getLast?_inked {s : Text} {c : Char}
    (h : (inked s).getLast? = some c) : ∃ u, Text.trimEnd s = u ++ [c] := by
  rw [← inked_trimEnd] at h
  have hend := Text.getLast?_trimEnd s
  rcases List.eq_nil_or_concat (Text.trimEnd s) with hnil | ⟨u, d, hconcat⟩
  · rw [hnil] at h
    cases h
  · rw [List.concat_eq_append] at hconcat
    rw [hconcat, List.getLast?_concat] at hend
    rw [hconcat, inked_append, inked_cons hend, inked_nil, List.getLast?_concat] at h
    cases h
    exact ⟨u, hconcat⟩

/-- A text whose last character apart from blanks is a tight mark is arranged apart from
what follows, and so that the mark is last. -/
theorem arrange_cut {s : Text} {c : Char} (hlast : (inked s).getLast? = some c)
    (hc : isTight c = true) :
    (arrange false s).getLast? = some c ∧
      ∀ t, arrange false (s ++ t) = arrange false s ++ arrange true t := by
  obtain ⟨blanks, hsplit, hblanks⟩ := Text.exists_trimEnd s
  obtain ⟨u, hu⟩ := exists_trimEnd_of_getLast?_inked hlast
  have hblank := isBlank_of_isTight hc
  have hoperator := isOperator_of_isTight hc
  have hcut (t : Text) : arrange false (s ++ t) = arrange false (u ++ [c]) ++ arrange true t := by
    rw [hsplit, hu, List.append_assoc, List.append_assoc, List.singleton_append,
      arrange_append hblank _ _ hoperator, hc, arrange_blanks hblanks]
  have hself : arrange false s = arrange false (u ++ [c]) := by
    have := hcut []
    rwa [List.append_nil, arrange_nil, List.append_nil] at this
  obtain ⟨v, hv⟩ := arrange_concat hblank u hoperator false
  refine ⟨by rw [hself, hv, List.getLast?_concat], fun t => ?_⟩
  rw [hcut, hself]

/-! ## Annotations -/

/-- An argument of an annotation with its dense spelling. No comment and no clause begins
in it. -/
structure IsArgument (argument settled : Text) : Prop where
  slash : '/' ∉ argument
  later : ∀ packaged t, dropLater packaged (argument ++ ')' :: t) =
    argument ++ ')' :: dropLater packaged t
  arranged : ∀ t, arrange false (argument ++ ')' :: t) = settled ++ ')' :: arrange false t

theorem isArgument_word {w : Text} (hw : Text.IsWord w) : IsArgument w w where
  slash := hw.not_mem rfl
  later packaged t := by
    rw [dropLater_word (t := ')' :: t) hw rfl rfl, dropLater_mark rfl]
  arranged t := by rw [arrange_word hw, arrange_inert rfl]

theorem arrange_braced_argument (spelling : Spelling) {ws : List Text}
    (hws : ∀ w ∈ ws, Text.IsWord w) (t : Text) :
    arrange false (braced spelling ws ++ ')' :: t) =
      braced .dense ws ++ ')' :: arrange false t := by
  have hgap (u : Text) : arrange true (spelling.gap ++ u) = arrange true u := by
    cases spelling with
    | printed => exact arrange_space_behind u
    | dense => rfl
  have hlist (tight : Bool) (u : Text) :
      arrange tight ((',' :: spelling.gap).intercalate ws ++ '}' :: u) =
        [','].intercalate ws ++ '}' :: arrange true u := by
    induction ws generalizing tight with
    | nil => exact arrange_mark rfl u
    | cons w ws ih =>
        have hw := hws w (by simp)
        cases ws with
        | nil =>
            rw [List.intercalate_singleton, List.intercalate_singleton, arrange_word hw,
              arrange_mark rfl]
        | cons v ws =>
            have hrest := ih (fun w hw => hws w (List.mem_cons_of_mem _ hw)) true
            rw [List.intercalate_cons_cons, List.intercalate_cons_cons, List.append_assoc,
              List.append_assoc, List.cons_append, arrange_word hw, arrange_mark rfl, hgap, hrest]
            simp
  rw [braced, List.cons_append, List.append_assoc, List.singleton_append, arrange_mark rfl, hlist,
    arrange_inert rfl, braced]
  simp

theorem isArgument_braced (spelling : Spelling) {ws : List Text} (hws : ∀ w ∈ ws, Text.IsWord w) :
    IsArgument (braced spelling ws) (braced .dense ws) where
  slash := (over_braced spelling hws).not_mem rfl (by decide)
  later _ := dropLater_braced spelling hws rfl
  arranged := arrange_braced_argument spelling hws

section Annotation

variable {name argument settled : Text} (hname : Text.IsWord name)
  (hargument : IsArgument argument settled)

include hname hargument

theorem slash_not_mem_annotationText : '/' ∉ annotationText name argument := by
  have hslash : '/' ∉ name := hname.not_mem rfl
  simp [annotationText, hargument.slash, hslash]

theorem dropLater_annotationText (packaged : Bool) (t : Text) :
    dropLater packaged (annotationText name argument ++ t) =
      annotationText name argument ++ dropLater packaged t := by
  rw [annotationText, List.cons_append, List.append_assoc, List.cons_append, List.append_assoc,
    List.singleton_append, dropLater_mark rfl, dropLater_word hname rfl rfl, dropLater_mark rfl,
    hargument.later]
  simp

/-- What was last in front of an annotation changes nothing in it. -/
theorem arrange_annotationText (tight : Bool) (t : Text) :
    arrange tight (annotationText name argument ++ t) =
      annotationText name settled ++ arrange false t := by
  rw [annotationText, List.cons_append, List.append_assoc, List.cons_append, List.append_assoc,
    List.singleton_append, arrange_inert rfl, arrange_word hname, arrange_inert rfl,
    hargument.arranged, annotationText]
  simp

end Annotation

/-! ## The dense text around a cut -/

section Dense

variable {s t rest : Text} {c : Char}

/-- The dense text of a closed front with a mark at its end, and of what follows. -/
theorem dense_append (hs : Closed s) (hlast : (dense s).getLast? = some c)
    (hc : isTight c = true) :
    ∃ packaged, ∀ t, dense (s ++ t) =
      dense s ++ Text.trimEnd (arrange true (dropLater packaged (stripComments t))) := by
  obtain ⟨packaged, hclosed⟩ := hs
  refine ⟨packaged, fun t => ?_⟩
  have hdense : dense s = Text.trim (arrange false (dropAllClauses (stripComments s))) := rfl
  have hinked : (inked (dropAllClauses (stripComments s))).getLast? = some c := by
    rw [← inked_arrange false, ← inked_trimStart, ← inked_trimEnd, ← Text.trim, ← hdense]
    obtain ⟨u, hu⟩ := List.getLast?_eq_some_iff.mp hlast
    rw [hu, inked_append, inked_cons (isBlank_of_isTight hc), inked_nil, List.getLast?_concat]
  obtain ⟨hend, hcut⟩ := arrange_cut hinked hc
  generalize hfront : arrange false (dropAllClauses (stripComments s)) = front at hdense hend hcut
  have hstart : dense s = Text.trimStart front := by
    rw [hdense, Text.trim, Text.trimEnd_of_getLast?]
    apply Text.getLast?_trimStart
    rw [hend]
    exact isBlank_of_isTight hc
  have hsplit := List.takeWhile_append_dropWhile (p := Text.isBlank) (l := front)
  have hblanks : Text.trimStart (front.takeWhile Text.isBlank) = [] :=
    Text.trimStart_blanks (List.all_eq_true.mp List.all_takeWhile)
  have hhead : (dense s).head?.any Text.isBlank = false := by
    rw [hstart]
    exact Text.head?_trimStart front
  rw [dense_eq, settle, hclosed, hcut, ← hsplit, ← Text.trimStart, ← hstart, List.append_assoc,
    Text.trim_around hhead, hblanks, List.nil_append]
  · rw [hlast]
    exact isBlank_of_isTight hc
  · intro hnil
    rw [hnil] at hlast
    cases hlast

/-- An annotation at the cut stands there in its dense spelling, with a space behind it
unless a tight mark follows. -/
theorem dense_append_annotation {name argument settled : Text} (hs : Closed s)
    (hlast : (dense s).getLast? = some c) (hc : isTight c = true) (hname : Text.IsWord name)
    (hargument : IsArgument argument settled)
    (hdense : dense (s ++ t) = dense s ++ rest) (hrest : Text.trimStart rest ≠ []) :
    ∃ gap, (gap = [' '] ∨ gap = [] ∧ (Text.trimStart rest).head?.any isTight = true) ∧
      dense (s ++ (annotationText name argument ++ ' ' :: t)) =
        dense s ++ (annotationText name settled ++ (gap ++ Text.trimStart rest)) := by
  obtain ⟨packaged, happend⟩ := dense_append hs hlast hc
  let later := dropLater packaged (stripComments t)
  have htail : rest = Text.trimEnd (arrange true later) :=
    List.append_cancel_left (hdense.symm.trans (happend t))
  have harranged : arrange true later = arrange false (Text.trimStart later) := by
    rw [← arrange_trimStart, arrange_true_eq (Text.head?_trimStart later)]
  have hcore : Text.trimStart rest =
      Text.trimEnd (Text.trimStart (arrange false (Text.trimStart later))) := by
    rw [htail, harranged, Text.trimEnd_trimStart]
  have hend : (annotationText name settled).getLast?.any Text.isBlank = false := by
    have hsplit : annotationText name settled = ('@' :: (name ++ '(' :: settled)) ++ [')'] := by
      simp [annotationText]
    rw [hsplit, List.getLast?_concat]
    rfl
  refine ⟨gapBefore later, ?_, ?_⟩
  · rw [gapBefore]
    split
    · rename_i hmark
      refine .inr ⟨rfl, ?_⟩
      have hhead := head?_arrange_mark hmark false
      have hstart : (arrange false (Text.trimStart later)).head?.any Text.isBlank = false := by
        rw [hhead]
        exact Text.head?_trimStart later
      rw [Text.trimStart_of_head? hstart] at hcore
      obtain ⟨blanks, hsplit, -⟩ := Text.exists_trimEnd (arrange false (Text.trimStart later))
      rw [← hhead, hsplit, ← hcore] at hmark
      obtain ⟨d, tail, htail⟩ := List.exists_cons_of_ne_nil hrest
      rw [htail] at hmark ⊢
      exact hmark
    · exact .inl rfl
  · rw [happend, stripComments_append (slash_not_mem_annotationText hname hargument),
      stripComments_cons (by decide), dropLater_annotationText hname hargument, dropLater_mark rfl,
      arrange_annotationText hname hargument, arrange_blank rfl,
      Text.trimEnd_append_of_getLast? hend]
    rw [hcore] at hrest ⊢
    rw [Text.trimEnd_append hrest]

end Dense

end ClassDiagram.Source
