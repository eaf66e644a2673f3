import ClassDiagram.Proofs.Source.Arrange

/-!
# Dense texts, part by part

The arrangement of a text can be cut behind any character that is neither a blank nor
part of an operator (`arrange_append`). It moves blanks only: all other characters stay
in their order (`filter_arrange`), no word is joined to the next one behind a blank
(`getLast?_arrange_blank`), and no word character comes to the front
(`head?_arrange`). A text in which no comment and no clause begins is kept as it stands
(`stripComments_kept`, `dropAllClauses_kept`).
-/

namespace ClassDiagram

namespace Text

section Stretch

variable {p : Char → Bool} {c : Char} (hc : p c = false)

include hc

theorem takeWhile_append_cons (s t : Text) : (s ++ c :: t).takeWhile p = s.takeWhile p := by
  induction s with
  | nil => exact List.takeWhile_cons_of_neg (by simp [hc])
  | cons d s ih => rw [List.cons_append, List.takeWhile_cons, List.takeWhile_cons, ih]

theorem dropWhile_append_cons (s t : Text) :
    (s ++ c :: t).dropWhile p = s.dropWhile p ++ c :: t := by
  induction s with
  | nil => exact List.dropWhile_cons_of_neg (by simp [hc])
  | cons d s ih =>
      rw [List.cons_append, List.dropWhile_cons, List.dropWhile_cons, ih]
      split <;> rfl

end Stretch

end Text

namespace Source

/-! ## Cuts -/

section Append

variable {c : Char} (hblank : Text.isBlank c = false) (s t : Text)

include hblank

theorem collapseBlanks_append :
    collapseBlanks (s ++ c :: t) = collapseBlanks s ++ c :: collapseBlanks t := by
  induction s with
  | nil => exact collapseBlanks_cons hblank t
  | cons d s ih =>
      have hhead : (s ++ c :: t).head?.any Text.isBlank = s.head?.any Text.isBlank := by
        cases s with
        | nil => exact hblank
        | cons e s => rfl
      rw [List.cons_append, collapseBlanks, collapseBlanks, ih, hhead]
      split
      · split
        · rfl
        · rfl
      · rfl

theorem tighten_append (tight : Bool) :
    tighten tight (s ++ c :: t) = tighten tight (s ++ [c]) ++ tighten (isTight c) t := by
  induction s generalizing tight with
  | nil =>
      rw [List.nil_append, List.nil_append, tighten_cons hblank, tighten_cons hblank]
      rfl
  | cons d s ih =>
      have hhead : (Text.trimStart (s ++ c :: t)).head? = (Text.trimStart (s ++ [c])).head? := by
        rw [Text.trimStart, Text.trimStart, Text.dropWhile_append_cons hblank,
          Text.dropWhile_append_cons hblank]
        cases s.dropWhile Text.isBlank with
        | nil => rfl
        | cons e s => rfl
      rw [List.cons_append, List.cons_append, tighten, tighten, hhead]
      split
      · split
        · exact ih tight
        · rw [ih tight, List.cons_append]
      · rw [ih (isTight d), List.cons_append]

theorem tighten_concat (tight : Bool) : ∃ u, tighten tight (s ++ [c]) = u ++ [c] := by
  induction s generalizing tight with
  | nil => exact ⟨[], tighten_cons hblank _ _⟩
  | cons d s ih =>
      rw [List.cons_append, tighten]
      split
      · split
        · exact ih tight
        · obtain ⟨u, hu⟩ := ih tight
          exact ⟨d :: u, by rw [hu, List.cons_append]⟩
      · obtain ⟨u, hu⟩ := ih (isTight d)
        exact ⟨d :: u, by rw [hu, List.cons_append]⟩

variable (hoperator : isOperator c = false)

include hoperator

theorem Assignment.here?_append :
    Assignment.here? (s ++ c :: t) =
      (Assignment.here? s).map fun a => { a with rest := a.rest ++ c :: t } := by
  rw [Assignment.here?, Assignment.here?]
  dsimp only
  rw [Text.takeWhile_append_cons hblank, Text.dropWhile_append_cons hblank,
    Text.takeWhile_append_cons hoperator, Text.dropWhile_append_cons hoperator]
  split
  · rfl
  · rename_i lead tail _
    rw [← List.append_assoc, Text.takeWhile_append_cons hblank, Text.dropWhile_append_cons hblank]
    rfl

theorem spaceAssignments_append :
    spaceAssignments (s ++ c :: t) = spaceAssignments s ++ c :: spaceAssignments t := by
  fun_induction spaceAssignments s with
  | case1 => exact spaceAssignments_cons hblank hoperator t
  | case2 d s a h ih =>
      have hhere := Assignment.here?_append hblank (d :: s) t hoperator
      rw [h, Option.map_some, List.cons_append] at hhere
      rw [List.cons_append, spaceAssignments_cons_some hhere, ih, List.append_assoc]
      rfl
  | case3 d s h ih =>
      have hhere := Assignment.here?_append hblank (d :: s) t hoperator
      rw [h, Option.map_none, List.cons_append] at hhere
      rw [List.cons_append, spaceAssignments_cons_none hhere, ih, List.cons_append]

theorem arrange_concat (tight : Bool) : ∃ u, arrange tight (s ++ [c]) = u ++ [c] := by
  obtain ⟨u, hu⟩ := tighten_concat hblank (collapseBlanks s) tight
  refine ⟨spaceAssignments u, ?_⟩
  rw [arrange, collapseBlanks_append hblank, collapseBlanks, hu,
    spaceAssignments_append hblank _ _ hoperator, spaceAssignments_nil]

/-- The arrangement behind a character depends on what stands before only by whether the
character is a tight mark. -/
theorem arrange_append (tight : Bool) :
    arrange tight (s ++ c :: t) = arrange tight (s ++ [c]) ++ arrange (isTight c) t := by
  obtain ⟨u, hu⟩ := tighten_concat hblank (collapseBlanks s) tight
  have hlast : collapseBlanks (s ++ [c]) = collapseBlanks s ++ [c] :=
    collapseBlanks_append hblank s []
  rw [arrange, arrange, arrange, collapseBlanks_append hblank, hlast, tighten_append hblank, hu,
    List.append_assoc, List.singleton_append, spaceAssignments_append hblank _ _ hoperator,
    spaceAssignments_append hblank _ _ hoperator, spaceAssignments_nil, List.append_assoc,
    List.singleton_append]

end Append

/-- In front of an inert character every text is arranged as if it stood alone. -/
theorem arrange_append_inert {c : Char} (hc : isInert c = true) (tight : Bool) (s t : Text) :
    arrange tight (s ++ c :: t) = arrange tight s ++ c :: arrange false t := by
  have hblank := isBlank_of_isInert hc
  have htighten (s : Text) (tight : Bool) : tighten tight (s ++ [c]) = tighten tight s ++ [c] := by
    induction s generalizing tight with
    | nil => exact tighten_cons hblank _ _
    | cons d s ih =>
        have hhead : (Text.trimStart (s ++ [c])).head?.any isTight =
            (Text.trimStart s).head?.any isTight := by
          rw [Text.trimStart, Text.trimStart, Text.dropWhile_append_cons hblank]
          cases s.dropWhile Text.isBlank with
          | nil => exact isTight_of_isInert hc
          | cons e s => rfl
        rw [List.cons_append, tighten, tighten, hhead]
        split
        · split
          · exact ih tight
          · rw [ih tight, List.cons_append]
        · rw [ih (isTight d), List.cons_append]
  have hlast : arrange tight (s ++ [c]) = arrange tight s ++ [c] := by
    rw [arrange, arrange, collapseBlanks_append hblank, collapseBlanks, htighten,
      spaceAssignments_append hblank _ _ (isOperator_of_isInert hc), spaceAssignments_nil]
  rw [arrange_append hblank _ _ (isOperator_of_isInert hc), hlast, isTight_of_isInert hc,
    List.append_assoc, List.singleton_append]

/-! ## The characters of an arrangement -/

/-- The characters of a text that are no blanks. -/
def inked (t : Text) : Text := t.filter fun c => !Text.isBlank c

@[simp] theorem inked_nil : inked [] = [] := rfl

@[simp] theorem inked_append (s t : Text) : inked (s ++ t) = inked s ++ inked t :=
  List.filter_append ..

theorem inked_cons {c : Char} (hc : Text.isBlank c = false) (t : Text) :
    inked (c :: t) = c :: inked t := List.filter_cons_of_pos (by simp [hc])

theorem inked_blank {c : Char} (hc : Text.isBlank c = true) (t : Text) :
    inked (c :: t) = inked t := List.filter_cons_of_neg (by simp [hc])

theorem inked_blanks {s : Text} (hs : ∀ c ∈ s, Text.isBlank c = true) : inked s = [] :=
  List.filter_eq_nil_iff.mpr fun c hc => by simp [hs c hc]

theorem inked_collapseBlanks (t : Text) : inked (collapseBlanks t) = inked t := by
  induction t with
  | nil => rfl
  | cons c t ih =>
      rw [collapseBlanks]
      split
      · rename_i hc
        split
        · rw [inked_blank hc, ih]
        · rw [inked_blank hc, inked_blank rfl, ih]
      · rename_i hc
        rw [Bool.not_eq_true] at hc
        rw [inked_cons hc, inked_cons hc, ih]

theorem inked_tighten (tight : Bool) (t : Text) : inked (tighten tight t) = inked t := by
  induction t generalizing tight with
  | nil => rfl
  | cons c t ih =>
      rw [tighten]
      split
      · rename_i hc
        split
        · rw [inked_blank hc, ih]
        · rw [inked_blank hc, inked_blank hc, ih]
      · rename_i hc
        rw [Bool.not_eq_true] at hc
        rw [inked_cons hc, inked_cons hc, ih]

theorem Assignment.blank_of_here? {t : Text} {a : Assignment} (h : Assignment.here? t = some a) :
    (∀ c ∈ a.gap, Text.isBlank c = true) ∧ ∀ c ∈ a.trail, Text.isBlank c = true := by
  rw [Assignment.here?] at h
  dsimp only at h
  split at h
  · cases h
  · cases h
    exact ⟨List.all_eq_true.mp List.all_takeWhile, List.all_eq_true.mp List.all_takeWhile⟩

theorem inked_spaceAssignments (t : Text) : inked (spaceAssignments t) = inked t := by
  fun_induction spaceAssignments t with
  | case1 => rfl
  | case2 c t a h ih =>
      obtain ⟨hgap, htrail⟩ := Assignment.blank_of_here? h
      have hequals : Text.isBlank '=' = false := rfl
      rw [inked_append, ih, Assignment.source_here? h, Assignment.spaced]
      cases hlead : a.lead with
      | nil =>
          rw [List.append_nil, inked_append, inked_blanks hgap, inked_cons hequals, inked_append,
            inked_blanks htrail]
          rfl
      | cons d lead =>
          have hsplit : a.gap ++ d :: lead ++ '=' :: (a.trail ++ a.rest) =
              (a.gap ++ d :: lead ++ '=' :: a.trail) ++ a.rest := by simp
          rw [hsplit, inked_append]
          rfl
  | case3 c t h ih =>
      cases hc : Text.isBlank c with
      | true => rw [inked_blank hc, inked_blank hc, ih]
      | false => rw [inked_cons hc, inked_cons hc, ih]

/-- An arrangement has the characters of its text in their order, blanks apart. -/
theorem inked_arrange (tight : Bool) (t : Text) : inked (arrange tight t) = inked t := by
  rw [arrange, inked_spaceAssignments, inked_tighten, inked_collapseBlanks]

theorem inked_trimStart (t : Text) : inked (Text.trimStart t) = inked t := by
  have hsplit := List.takeWhile_append_dropWhile (p := Text.isBlank) (l := t)
  have hblanks : ∀ c ∈ t.takeWhile Text.isBlank, Text.isBlank c = true :=
    List.all_eq_true.mp List.all_takeWhile
  rw [← hsplit, inked_append, inked_blanks hblanks, List.nil_append, hsplit, Text.trimStart]

theorem inked_trimEnd (t : Text) : inked (Text.trimEnd t) = inked t := by
  obtain ⟨blanks, hsplit, hblanks⟩ := Text.exists_trimEnd t
  rw [hsplit, inked_append, inked_blanks hblanks, List.append_nil, ← hsplit]

theorem mem_inked {c : Char} (hc : Text.isBlank c = false) {t : Text} :
    c ∈ inked t ↔ c ∈ t := by
  simp [inked, hc]

/-- The first character of a kind that has no blanks. -/
theorem find?_inked {p : Char → Bool} (hp : ∀ c, p c = true → Text.isBlank c = false) (t : Text) :
    (inked t).find? p = t.find? p := by
  rw [inked, List.find?_filter]
  congr 1
  funext c
  cases hc : p c with
  | false => simp
  | true => simp [hp c hc]

/-! ## The ends of an arrangement -/

theorem head?_arrange_mark {t : Text} (h : t.head?.any isTight = true) (tight : Bool) :
    (arrange tight t).head? = t.head? := by
  cases t with
  | nil => cases h
  | cons c t =>
      rw [arrange_mark h]
      rfl

/-- No word character comes to the front of a text. -/
theorem head?_arrange {t : Text} (h : t.head?.any Text.isWordChar = false) :
    (arrange false t).head?.any Text.isWordChar = false := by
  cases t with
  | nil => rw [arrange_nil]; rfl
  | cons c t =>
      have hword : Text.isWordChar c = false := h
      cases hc : Text.isBlank c with
      | true =>
          rw [arrange_blank hc, gapBefore]
          split
          · rename_i hmark
            rw [List.nil_append]
            cases hrest : Text.trimStart t with
            | nil => rw [arrange_nil]; rfl
            | cons d rest =>
                rw [hrest] at hmark
                have hd : isTight d = true := hmark
                rw [arrange_mark hd,
                  Text.trimStart_of_head? (t := d :: _) (isBlank_of_isTight hd)]
                exact isWordChar_of_isTight hd
          · rfl
      | false =>
          have hinked := inked_arrange false (c :: t)
          rw [inked_cons hc] at hinked
          cases harrange : arrange false (c :: t) with
          | nil => rfl
          | cons d rest =>
              rw [List.head?_cons, Option.any_some]
              cases hd : Text.isBlank d with
              | true => exact Text.isWordChar_of_isBlank hd
              | false =>
                  rw [harrange, inked_cons hd] at hinked
                  rw [(List.cons.inj hinked).1, hword]

theorem getLast?_collapseBlanks {c : Char} (hc : Text.isBlank c = true) (s : Text) :
    ∃ u, collapseBlanks (s ++ [c]) = u ++ [' '] := by
  induction s with
  | nil => exact ⟨[], collapseBlanks_blank hc []⟩
  | cons d s ih =>
      obtain ⟨u, hu⟩ := ih
      rw [List.cons_append, collapseBlanks, hu]
      split
      · split
        · exact ⟨u, rfl⟩
        · exact ⟨' ' :: u, rfl⟩
      · exact ⟨d :: u, rfl⟩

/-- The space at the end stays, or a tight mark or nothing at all is last. -/
theorem getLast?_tighten (tight : Bool) (s : Text) :
    (tighten tight (s ++ [' ']) = [] → tight = true) ∧
      (tighten tight (s ++ [' '])).getLast?.any Text.isWordChar = false := by
  have hspace : Text.isBlank ' ' = true := rfl
  induction s generalizing tight with
  | nil =>
      cases tight with
      | true => exact ⟨fun _ => rfl, by rw [List.nil_append, tighten_true_blank hspace]; rfl⟩
      | false => exact ⟨fun h => absurd h (List.cons_ne_nil _ _), rfl⟩
  | cons d s ih =>
      rw [List.cons_append, tighten]
      split
      · rename_i hd
        split
        · exact ih tight
        · refine ⟨fun h => absurd h (List.cons_ne_nil _ _), ?_⟩
          rw [List.getLast?_cons]
          cases hlast : (tighten tight (s ++ [' '])).getLast? with
          | none =>
              rw [Option.getD_none, Option.any_some, Text.isWordChar_of_isBlank hd]
          | some e =>
              have hrest := (ih tight).2
              rw [hlast] at hrest
              exact hrest
      · refine ⟨fun h => absurd h (List.cons_ne_nil _ _), ?_⟩
        rw [List.getLast?_cons]
        cases hlast : (tighten (isTight d) (s ++ [' '])).getLast? with
        | none =>
            rw [List.getLast?_eq_none_iff] at hlast
            exact isWordChar_of_isTight ((ih (isTight d)).1 hlast)
        | some e =>
            have hrest := (ih (isTight d)).2
            rw [hlast] at hrest
            exact hrest

theorem spaceAssignments_eq_nil {t : Text} (h : spaceAssignments t = []) : t = [] := by
  cases t with
  | nil => rfl
  | cons c t =>
      rw [spaceAssignments.eq_def] at h
      dsimp only at h
      split at h
      · rename_i a _
        rw [Assignment.spaced] at h
        split at h <;> simp at h
      · cases h

theorem getLast?_spaceAssignments {t : Text} (h : t.getLast?.any Text.isWordChar = false) :
    (spaceAssignments t).getLast?.any Text.isWordChar = false := by
  fun_induction spaceAssignments t with
  | case1 => rfl
  | case2 c t a hhere ih =>
      have hsource := Assignment.source_here? hhere
      have htrail := (Assignment.blank_of_here? hhere).2
      rw [List.getLast?_append]
      by_cases hrest : a.rest = []
      · have hspaced : a.spaced.getLast?.any Text.isWordChar = false := by
          rw [Assignment.spaced]
          split
          · rfl
          · rw [List.getLast?_append, List.getLast?_cons, Option.some_or, Option.any_some]
            cases hlast : a.trail.getLast? with
            | none => rfl
            | some d =>
                exact Text.isWordChar_of_isBlank (htrail d (List.mem_of_getLast? hlast))
        rw [hrest, spaceAssignments_nil]
        exact hspaced
      · have hne : spaceAssignments a.rest ≠ [] := fun hnil => hrest (spaceAssignments_eq_nil hnil)
        have hlast : (c :: t).getLast? = a.rest.getLast? := by
          rw [hsource, ← List.cons_append, ← List.append_assoc, List.getLast?_append,
            List.getLast?_eq_some_getLast hrest, Option.some_or]
        rw [hlast] at h
        have hih := ih h
        rw [List.getLast?_eq_some_getLast hne] at hih ⊢
        exact hih
  | case3 c t _ ih =>
      cases t with
      | nil =>
          rw [spaceAssignments_nil]
          exact h
      | cons d t =>
          have hne : spaceAssignments (d :: t) ≠ [] := fun hnil => by
            cases spaceAssignments_eq_nil hnil
          rw [List.getLast?_cons_cons] at h
          have hih := ih h
          rw [List.getLast?_cons, List.getLast?_eq_some_getLast hne] at *
          exact hih

/-- A blank at the end of a text keeps the next word apart. -/
theorem getLast?_arrange_blank {c : Char} (hc : Text.isBlank c = true) (tight : Bool) (s : Text) :
    (arrange tight (s ++ [c])).getLast?.any Text.isWordChar = false := by
  obtain ⟨u, hu⟩ := getLast?_collapseBlanks hc s
  rw [arrange, hu]
  exact getLast?_spaceAssignments (getLast?_tighten tight u).2

/-! ## Texts without comments and clauses -/

/-- True of the texts that begin with the marker of a comment. -/
def opensComment : Text → Bool
  | '/' :: '/' :: _ => true
  | '/' :: '*' :: _ => true
  | _ => false

/-- The keywords that open a clause. -/
def clauseKeywords : List Text := ["package".toList, "import".toList]

/-- True of the texts that begin with the keyword of a clause and a blank, as a word of
its own. -/
def opensClauseAt (before : Option Char) (t : Text) : Bool :=
  !before.any Text.isWordChar && clauseKeywords.any fun keyword =>
    ((Text.dropPrefix? keyword t).bind List.head?).any Text.isBlank

/-- True of the texts in which no comment and no clause begins, given the character
before. -/
def isKept (before : Option Char) : Text → Bool
  | [] => true
  | c :: t => !opensComment (c :: t) && !opensClauseAt before (c :: t) && isKept (some c) t

section Kept

variable {before : Option Char} {c mark : Char} {s : Text}

theorem isKept_cons (h : isKept before (c :: s) = true) :
    opensComment (c :: s) = false ∧ opensClauseAt before (c :: s) = false ∧
      isKept (some c) s = true := by
  simpa only [isKept, Bool.and_eq_true, Bool.not_eq_true', and_assoc] using h

theorem stripComments_cons_of_not (h : opensComment (c :: s) = false) :
    stripComments (c :: s) = c :: stripComments s := by
  rw [stripComments]
  · rintro _ rfl rfl
    cases h
  · rintro _ rfl rfl
    cases h

theorem opensComment_mark (hmark : isTight mark = true) (h : opensComment (c :: s) = false)
    (t : Text) : opensComment (c :: (s ++ mark :: t)) = false := by
  cases s with
  | nil =>
      rw [opensComment.eq_def]
      split
      · rename_i heq
        cases heq
        cases hmark
      · rename_i heq
        cases heq
        cases hmark
      · rfl
  | cons d s =>
      rw [opensComment.eq_def] at h ⊢
      split
      · rename_i heq
        cases heq
        cases h
      · rename_i heq
        cases heq
        cases h
      · rfl

theorem stripComments_kept (hmark : isTight mark = true) (h : isKept before s = true) (t : Text) :
    stripComments (s ++ mark :: t) = s ++ mark :: stripComments t := by
  induction s generalizing before with
  | nil =>
      refine stripComments_cons ?_ t
      rintro rfl
      cases hmark
  | cons c s ih =>
      obtain ⟨hcomment, -, hrest⟩ := isKept_cons h
      rw [List.cons_append, stripComments_cons_of_not (opensComment_mark hmark hcomment t),
        ih hrest, List.cons_append]

/-- No keyword reaches over a tight mark. -/
theorem dropPrefix?_mark (hmark : isTight mark = true) {keyword : Text}
    (hkeyword : Text.IsWord keyword) (s t : Text) :
    ((Text.dropPrefix? keyword (s ++ mark :: t)).bind List.head?).any Text.isBlank =
      ((Text.dropPrefix? keyword s).bind List.head?).any Text.isBlank := by
  have hchars := hkeyword.2
  clear hkeyword
  induction keyword generalizing s with
  | nil =>
      cases s with
      | nil => exact isBlank_of_isTight hmark
      | cons d s => rfl
  | cons k keyword ih =>
      cases s with
      | nil =>
          have hk : k ≠ mark :=
            Text.ne_of_isWordChar (hchars k (by simp)) (isWordChar_of_isTight hmark)
          have hmatch : Text.dropPrefix? (k :: keyword) (mark :: t) = none := by
            rw [Text.dropPrefix?, if_neg hk]
          rw [List.nil_append, hmatch]
          rfl
      | cons d s =>
          rw [List.cons_append, Text.dropPrefix?, Text.dropPrefix?]
          split
          · exact ih s fun c hc => hchars c (List.mem_cons_of_mem _ hc)
          · rfl

theorem isWord_of_clauseKeyword {keyword : Text} (h : keyword ∈ clauseKeywords) :
    Text.IsWord keyword := by
  have hall : ∀ word ∈ clauseKeywords, Text.IsWord word := by decide
  exact hall keyword h

theorem afterClause?_over_mark (hmark : isTight mark = true) {keyword : Text}
    (hkeyword : keyword ∈ clauseKeywords) (h : opensClauseAt before s = false) (t : Text) :
    afterClause? keyword before (s ++ mark :: t) = none := by
  rw [afterClause?]
  split
  · rfl
  · rename_i hbefore
    rw [Bool.not_eq_true] at hbefore
    rw [opensClauseAt, hbefore, Bool.not_false, Bool.true_and, List.any_eq_false] at h
    have hblank := h keyword hkeyword
    rw [← dropPrefix?_mark hmark (isWord_of_clauseKeyword hkeyword) s t] at hblank
    split
    · rename_i c rest hmatch
      rw [hmatch] at hblank
      exact if_neg hblank
    · rfl

theorem Copies.kept {keyword : Text} {scan : Option Char → Text → Text}
    (hscan : Copies keyword scan) (hkeyword : keyword ∈ clauseKeywords)
    (hmark : isTight mark = true) (h : isKept before s = true) (t : Text) :
    scan before (s ++ mark :: t) = s ++ mark :: scan none t := by
  induction s generalizing before with
  | nil =>
      exact hscan.mark_cons (isWord_of_clauseKeyword hkeyword) (isWordChar_of_isTight hmark)
        before t
  | cons c s ih =>
      obtain ⟨-, hclause, hrest⟩ := isKept_cons h
      have hcopy : afterClause? keyword before (c :: (s ++ mark :: t)) = none :=
        afterClause?_over_mark hmark hkeyword hclause t
      rw [List.cons_append, hscan.cons _ _ _ hcopy, ih hrest, List.cons_append]

theorem dropAllClauses_kept (hmark : isTight mark = true) (h : isKept none s = true) (t : Text) :
    dropAllClauses (s ++ mark :: t) = s ++ mark :: dropAllClauses t := by
  rw [dropAllClauses, (copies_dropFirstClause _).kept (by decide) hmark h,
    (copies_dropClauses _).kept (by decide) hmark h, dropAllClauses]

end Kept

end Source

end ClassDiagram
