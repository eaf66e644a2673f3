import ClassDiagram.Proofs.Text.Word
import ClassDiagram.Source.Spacing

/-!
# Texts without clauses and comments

Comments begin with a slash and clauses with their keyword as a word of its own.
Every other word and mark passes both scans as it stands, whatever follows it.
-/

namespace ClassDiagram.Source

theorem stripComments_cons {c : Char} (hc : c ≠ '/') (t : Text) :
    stripComments (c :: t) = c :: stripComments t := by
  rw [stripComments]
  · rintro _ rfl
    exact absurd rfl hc
  · rintro _ rfl
    exact absurd rfl hc

theorem stripComments_append {s : Text} (hs : '/' ∉ s) (t : Text) :
    stripComments (s ++ t) = s ++ stripComments t := by
  induction s with
  | nil => rfl
  | cons c s ih =>
      have hc : c ≠ '/' := by
        rintro rfl
        exact hs (by simp)
      rw [List.cons_append, stripComments_cons hc, ih fun h => hs (List.mem_cons_of_mem _ h),
        List.cons_append]

/-! ## Where no clause starts -/

section Clause

variable {keyword : Text} {before : Option Char}

theorem afterClause?_inside {b : Char} (hb : Text.isWordChar b = true) (t : Text) :
    afterClause? keyword (some b) t = none := by
  rw [afterClause?, if_pos (by simpa using hb)]

theorem afterClause?_mark (hkeyword : Text.IsWord keyword) {c : Char}
    (hc : Text.isWordChar c = false) (t : Text) :
    afterClause? keyword before (c :: t) = none := by
  obtain ⟨hne, hword⟩ := hkeyword
  cases keyword with
  | nil => exact absurd rfl hne
  | cons k keyword =>
      have hk : k ≠ c := Text.ne_of_isWordChar (hword k (by simp)) hc
      rw [afterClause?, Text.dropPrefix?, if_neg hk]
      split <;> rfl

/-- A word starts no clause, unless it is the keyword and a blank follows. -/
theorem afterClause?_word (hkeyword : Text.IsWord keyword) {w t : Text} (hw : Text.IsWord w)
    (ht : t.head?.any Text.isWordChar = false)
    (hne : t.head?.any Text.isBlank = true → w ≠ keyword) :
    afterClause? keyword before (w ++ t) = none := by
  rw [afterClause?]
  split
  · rfl
  · split
    · rename_i c rest hprefix
      split
      · rename_i hc
        have hsplit := Text.dropPrefix?_eq_some_iff.mp hprefix
        have hrest : (c :: rest).head?.any Text.isWordChar = false := Text.isWordChar_of_isBlank hc
        have hsame := congrArg (List.takeWhile Text.isWordChar) hsplit
        rw [Text.takeWhile_stretch hw.2 ht, Text.takeWhile_stretch hkeyword.2 hrest] at hsame
        subst hsame
        have htail : t = c :: rest := List.append_cancel_left hsplit
        subst htail
        exact absurd rfl (hne (by simpa using hc))
      · rfl
    · rfl

theorem afterClause?_of_mark {b : Char} (hb : Text.isWordChar b = false) (t : Text) :
    afterClause? keyword (some b) t = afterClause? keyword none t := by
  rw [afterClause?, afterClause?, if_neg (by simp [hb]), if_neg (by simp)]

end Clause

/-- A scan that copies every character at which no clause starts. What it makes of
a text depends on the character before only as far as that is a word character. -/
structure Copies (keyword : Text) (scan : Option Char → Text → Text) : Prop where
  nil : ∀ before, scan before [] = []
  cons : ∀ before c t, afterClause? keyword before (c :: t) = none →
    scan before (c :: t) = c :: scan (some c) t
  mark : ∀ b t, Text.isWordChar b = false → scan (some b) t = scan none t

theorem copies_dropFirstClause (keyword : Text) : Copies keyword (dropFirstClause keyword) where
  nil _ := rfl
  cons before c t h := by
    rw [dropFirstClause]
    simp only [h]
  mark b t hb := by
    cases t with
    | nil => rfl
    | cons c t =>
        rw [dropFirstClause, dropFirstClause, afterClause?_of_mark hb]

theorem copies_dropClauses (keyword : Text) : Copies keyword (dropClauses keyword) where
  nil _ := by rw [dropClauses]
  cons before c t h := by
    rw [dropClauses]
    split
    · rename_i after hafter
      rw [h] at hafter
      cases hafter
    · rfl
  mark b t hb := by
    cases t with
    | nil => rw [dropClauses, dropClauses]
    | cons c t =>
        rw [dropClauses, dropClauses]
        split
        · rename_i after hafter
          rw [afterClause?_of_mark hb] at hafter
          split
          · rename_i other hother
            rw [hafter] at hother
            cases hother
            rfl
          · rename_i hother
            rw [hafter] at hother
            cases hother
        · rename_i hafter
          rw [afterClause?_of_mark hb] at hafter
          split
          · rename_i other hother
            rw [hafter] at hother
            cases hother
          · rfl

namespace Copies

variable {keyword : Text} {scan : Option Char → Text → Text}

theorem mark_cons (h : Copies keyword scan) (hkeyword : Text.IsWord keyword) {c : Char}
    (hc : Text.isWordChar c = false) (before : Option Char) (t : Text) :
    scan before (c :: t) = c :: scan none t := by
  rw [h.cons _ _ _ (afterClause?_mark hkeyword hc t), h.mark c t hc]

/-- Behind a word character the rest of its word is copied. -/
theorem inside (h : Copies keyword scan) (hkeyword : Text.IsWord keyword) {b : Char}
    (hb : Text.isWordChar b = true) {s t : Text} (hs : ∀ c ∈ s, Text.isWordChar c = true)
    (ht : t.head?.any Text.isWordChar = false) :
    scan (some b) (s ++ t) = s ++ scan none t := by
  induction s generalizing b with
  | nil =>
      cases t with
      | nil => exact (h.nil _).trans (h.nil _).symm
      | cons c t =>
          have hc : Text.isWordChar c = false := by simpa using ht
          rw [List.nil_append, List.nil_append, h.mark_cons hkeyword hc, h.mark_cons hkeyword hc]
  | cons c s ih =>
      rw [List.cons_append, h.cons _ _ _ (afterClause?_inside hb _),
        ih (hs c (by simp)) fun d hd => hs d (List.mem_cons_of_mem _ hd), List.cons_append]

theorem word (h : Copies keyword scan) (hkeyword : Text.IsWord keyword) {w t : Text}
    (hw : Text.IsWord w) (ht : t.head?.any Text.isWordChar = false)
    (hne : t.head?.any Text.isBlank = true → w ≠ keyword) :
    scan none (w ++ t) = w ++ scan none t := by
  have hclause : afterClause? keyword none (w ++ t) = none :=
    afterClause?_word hkeyword hw ht hne
  obtain ⟨hnil, hchars⟩ := hw
  cases w with
  | nil => exact absurd rfl hnil
  | cons c w =>
      rw [List.cons_append] at hclause ⊢
      rw [h.cons _ _ _ hclause, h.inside hkeyword (hchars c (by simp))
        (fun d hd => hchars d (List.mem_cons_of_mem _ hd)) ht, List.cons_append]

end Copies

/-! ## Both clauses -/

/-- The text without its first package clause and its import clauses. -/
def dropAllClauses (t : Text) : Text :=
  dropClauses "import".toList none (dropFirstClause "package".toList none t)

theorem dropAllClauses_nil : dropAllClauses [] = [] :=
  (copies_dropClauses _).nil _

theorem dropAllClauses_mark {c : Char} (hc : Text.isWordChar c = false) (t : Text) :
    dropAllClauses (c :: t) = c :: dropAllClauses t := by
  rw [dropAllClauses, (copies_dropFirstClause _).mark_cons (by decide) hc,
    (copies_dropClauses _).mark_cons (by decide) hc, dropAllClauses]

/-- The words that open a clause when a blank follows. -/
def opensClause (w : Text) : Bool := w == "package".toList || w == "import".toList

theorem head?_dropFirstClause (t : Text) (ht : t.head?.any Text.isWordChar = false) :
    (dropFirstClause "package".toList none t).head? = t.head? := by
  cases t with
  | nil => rfl
  | cons c t =>
      have hc : Text.isWordChar c = false := by simpa using ht
      rw [(copies_dropFirstClause _).mark_cons (by decide) hc]
      rfl

theorem dropAllClauses_word {w t : Text} (hw : Text.IsWord w)
    (ht : t.head?.any Text.isWordChar = false)
    (hne : t.head?.any Text.isBlank = true → opensClause w = false) :
    dropAllClauses (w ++ t) = w ++ dropAllClauses t := by
  have hhead := head?_dropFirstClause t ht
  rw [dropAllClauses, (copies_dropFirstClause _).word (by decide) hw ht,
    (copies_dropClauses _).word (by decide) hw (by rw [hhead, ht]), dropAllClauses]
  · rw [hhead]
    intro hblank
    have := hne hblank
    rintro rfl
    simp [opensClause] at this
  · intro hblank
    have := hne hblank
    rintro rfl
    simp [opensClause] at this

end ClassDiagram.Source
