import ClassDiagram.Proofs.Text.Line
import ClassDiagram.Text.WordChar

/-!
# Words and what surrounds them

A word is a text of word characters. No blank, quote, bracket or operator is one,
so a word keeps its shape in every scan. The words between the blanks of a text are
read off from the front (`words_solid_append`).
-/

namespace ClassDiagram.Text

/-! ## Word characters -/

/-- A character that is no word character differs from all that are. -/
theorem ne_of_isWordChar {c d : Char} (hc : isWordChar c = true) (hd : isWordChar d = false) :
    c ≠ d := by
  rintro rfl
  rw [hc] at hd
  cases hd

theorem ne_of_isBlank {c d : Char} (hc : isBlank c = true) (hd : isBlank d = false) : c ≠ d := by
  rintro rfl
  rw [hc] at hd
  cases hd

/-- The code points of the blanks. -/
private def blankCodes : List Nat :=
  [9, 10, 11, 12, 13, 0x20, 0x85, 0xA0, 0x1680, 0x2000, 0x2001, 0x2002, 0x2003, 0x2004, 0x2005,
    0x2006, 0x2007, 0x2008, 0x2009, 0x200A, 0x2028, 0x2029, 0x202F, 0x205F, 0x3000]

private theorem mem_blankCodes {c : Char} (h : isBlank c = true) : c.toNat ∈ blankCodes := by
  simp only [isBlank, Bool.or_eq_true, Bool.and_eq_true, decide_eq_true_eq, beq_iff_eq] at h
  simp only [blankCodes, List.mem_cons, List.not_mem_nil, or_false]
  omega

theorem isBlank_of_isWordChar {c : Char} (h : isWordChar c = true) : isBlank c = false := by
  rw [← Bool.not_eq_true]
  intro hblank
  have hnone : ∀ code ∈ blankCodes, isWordChar (Char.ofNat code) = false := by
    decide +kernel
  have hc := hnone c.toNat (mem_blankCodes hblank)
  rw [Char.ofNat_toNat, h] at hc
  cases hc

theorem isWordChar_of_isBlank {c : Char} (h : isBlank c = true) : isWordChar c = false := by
  rw [← Bool.not_eq_true]
  intro hword
  rw [isBlank_of_isWordChar hword] at h
  cases h

/-- What a test finds of every character of a text holds of each of them. -/
theorem forall_mem_of_all {p : Char → Prop} [DecidablePred p] {t : Text}
    (h : t.all (fun c => decide (p c)) = true) : ∀ c ∈ t, p c :=
  fun c hc => of_decide_eq_true (List.all_eq_true.mp h c hc)

/-- A word: some word characters, and nothing else. -/
def IsWord (w : Text) : Prop := w ≠ [] ∧ ∀ c ∈ w, isWordChar c = true

instance (w : Text) : Decidable (IsWord w) :=
  decidable_of_iff (w ≠ [] ∧ w.all isWordChar = true) (and_congr_right' List.all_eq_true)

namespace IsWord

variable {w : Text}

theorem ne_nil (h : IsWord w) : w ≠ [] := h.1

theorem isBlank (h : IsWord w) : ∀ c ∈ w, Text.isBlank c = false :=
  fun c hc => isBlank_of_isWordChar (h.2 c hc)

/-- A word lacks every character that is no word character. -/
theorem not_mem (h : IsWord w) {d : Char} (hd : isWordChar d = false) : d ∉ w := by
  intro hmem
  rw [h.2 d hmem] at hd
  cases hd

end IsWord

/-! ## Words and marks -/

/-- The text consists of word characters and of some marks. -/
def Over (marks t : Text) : Prop := ∀ c ∈ t, isWordChar c = true ∨ c ∈ marks

namespace Over

variable {marks s t : Text}

theorem nil : Over marks [] := by
  intro c hc
  cases hc

theorem of_word (ht : ∀ c ∈ t, isWordChar c = true) : Over marks t := fun c hc => .inl (ht c hc)

theorem of_marks (ht : t ⊆ marks) : Over marks t := fun _ hc => .inr (ht hc)

theorem append (hs : Over marks s) (ht : Over marks t) : Over marks (s ++ t) := by
  intro c hc
  rcases List.mem_append.mp hc with hc | hc
  · exact hs c hc
  · exact ht c hc

theorem cons {c : Char} (hc : c ∈ marks) (ht : Over marks t) : Over marks (c :: t) := by
  intro d hd
  rcases List.mem_cons.mp hd with rfl | hd
  · exact .inr hc
  · exact ht d hd

theorem intercalate {separator : Text} (hseparator : separator ⊆ marks) {parts : List Text}
    (hparts : ∀ s ∈ parts, Over marks s) : Over marks (separator.intercalate parts) :=
  forall_mem_intercalate (of_marks hseparator) hparts

theorem mono {more : Text} (h : Over marks t) (hmarks : marks ⊆ more) : Over more t :=
  fun c hc => (h c hc).imp_right fun hmem => hmarks hmem

/-- What is true of word characters and of the marks is true of the whole text. -/
theorem forall_mem (h : Over marks t) {p : Char → Prop} (hmarks : ∀ c ∈ marks, p c)
    (hwords : ∀ c, isWordChar c = true → p c) : ∀ c ∈ t, p c := by
  intro c hc
  rcases h c hc with hword | hmark
  · exact hwords c hword
  · exact hmarks c hmark

/-- No other mark stands in the text. -/
theorem not_mem (h : Over marks t) {d : Char} (hd : isWordChar d = false) (hmarks : d ∉ marks) :
    d ∉ t := by
  intro hmem
  rcases h d hmem with hword | hmark
  · rw [hd] at hword
    cases hword
  · exact hmarks hmark

end Over

/-! ## Stretches -/

section Stretch

variable {p : Char → Bool} {s t : Text}

/-- A stretch is taken as a whole when it does not go on behind it. -/
theorem takeWhile_stretch (hs : ∀ c ∈ s, p c = true) (ht : t.head?.any p = false) :
    (s ++ t).takeWhile p = s := by
  induction s with
  | nil =>
      cases t with
      | nil => rfl
      | cons c t => exact List.takeWhile_cons_of_neg (by simpa using ht)
  | cons c s ih =>
      rw [List.cons_append, List.takeWhile_cons_of_pos (hs c (by simp)),
        ih fun d hd => hs d (List.mem_cons_of_mem _ hd)]

theorem dropWhile_stretch (hs : ∀ c ∈ s, p c = true) (ht : t.head?.any p = false) :
    (s ++ t).dropWhile p = t := by
  induction s with
  | nil =>
      cases t with
      | nil => rfl
      | cons c t => exact List.dropWhile_cons_of_neg (by simpa using ht)
  | cons c s ih =>
      rw [List.cons_append, List.dropWhile_cons_of_pos (hs c (by simp)),
        ih fun d hd => hs d (List.mem_cons_of_mem _ hd)]

/-- A text is one stretch, or its first stretch ends at a character of another kind. -/
theorem stretch_or_split (p : Char → Bool) (t : Text) :
    (∀ c ∈ t, p c = true) ∨
      ∃ s c rest, t = s ++ c :: rest ∧ (∀ d ∈ s, p d = true) ∧ p c = false := by
  have hsplit := List.takeWhile_append_dropWhile (p := p) (l := t)
  have hstretch : ∀ c ∈ t.takeWhile p, p c = true := List.all_eq_true.mp List.all_takeWhile
  cases hdrop : t.dropWhile p with
  | nil =>
      rw [hdrop, List.append_nil] at hsplit
      exact .inl (hsplit ▸ hstretch)
  | cons c rest =>
      have hhead := List.head_dropWhile_not p (l := t) (by simp [hdrop])
      rw [hdrop] at hsplit
      exact .inr ⟨_, c, rest, hsplit.symm, hstretch, by simpa [hdrop] using hhead⟩

end Stretch

/-! ## Trimming -/

theorem trimStart_of_head? {t : Text} (h : t.head?.any isBlank = false) : trimStart t = t := by
  cases t with
  | nil => rfl
  | cons c t => exact List.dropWhile_cons_of_neg (by simpa using h)

theorem trimStart_blank {c : Char} (h : isBlank c = true) (t : Text) :
    trimStart (c :: t) = trimStart t :=
  List.dropWhile_cons_of_pos h

theorem head?_trimStart (t : Text) : (trimStart t).head?.any isBlank = false := by
  induction t with
  | nil => rfl
  | cons c t ih =>
      cases hc : isBlank c with
      | true => rw [trimStart_blank hc, ih]
      | false => rw [trimStart_of_head? (by simpa using hc), List.head?_cons, Option.any_some, hc]

@[simp] theorem trimStart_trimStart (t : Text) : trimStart (trimStart t) = trimStart t :=
  trimStart_of_head? (head?_trimStart t)

theorem trimStart_append {s : Text} (hs : trimStart s ≠ []) (t : Text) :
    trimStart (s ++ t) = trimStart s ++ t := by
  rw [trimStart, List.dropWhile_append, if_neg (by simpa [trimStart] using hs), trimStart]

theorem trimEnd_append {s t : Text} (ht : trimEnd t ≠ []) : trimEnd (s ++ t) = s ++ trimEnd t := by
  have hdrop : t.reverse.dropWhile isBlank ≠ [] := by
    intro hnil
    rw [trimEnd, hnil] at ht
    exact ht rfl
  rw [trimEnd, List.reverse_append, List.dropWhile_append, if_neg (by simpa using hdrop),
    List.reverse_append, List.reverse_reverse, trimEnd]

theorem trimEnd_of_getLast? {t : Text} (h : t.getLast?.any isBlank = false) : trimEnd t = t := by
  rw [← List.head?_reverse] at h
  have hstart := trimStart_of_head? h
  rw [trimStart] at hstart
  rw [trimEnd, hstart, List.reverse_reverse]

theorem trimEnd_cons {c : Char} (hc : isBlank c = false) (t : Text) :
    trimEnd (c :: t) = c :: trimEnd t := by
  by_cases ht : trimEnd t = []
  · have hdrop : t.reverse.dropWhile isBlank = [] := by simpa [trimEnd] using ht
    rw [trimEnd, List.reverse_cons, List.dropWhile_append, hdrop, ht]
    simp [hc]
  · exact trimEnd_append (s := [c]) ht

theorem trimStart_append_of_blank {s : Text} (hs : ∀ c ∈ s, isBlank c = true) (t : Text) :
    trimStart (s ++ t) = trimStart t := by
  induction s with
  | nil => rfl
  | cons c s ih =>
      rw [List.cons_append, trimStart_blank (hs c (by simp)),
        ih fun d hd => hs d (List.mem_cons_of_mem _ hd)]

/-- Blanks in front of a text go with the others. -/
theorem trimEnd_append_of_blank {s : Text} (hs : ∀ c ∈ s, isBlank c = true) (t : Text) :
    trimEnd (t ++ s) = trimEnd t := by
  have hreverse := trimStart_append_of_blank (s := s.reverse) (by simpa using hs) t.reverse
  rw [trimEnd, trimEnd, List.reverse_append, ← trimStart, hreverse, trimStart]

/-- Blanks at the end of a text are passed over from the front only behind all of it. -/
theorem exists_trimStart_append {s : Text} (hs : ∀ c ∈ s, isBlank c = true) (t : Text) :
    ∃ u, trimStart (t ++ s) = trimStart t ++ u ∧ ∀ c ∈ u, isBlank c = true := by
  rw [trimStart, List.dropWhile_append]
  split
  · rename_i hempty
    refine ⟨s.dropWhile isBlank, ?_, fun c hc => hs c ((List.dropWhile_sublist _).subset hc)⟩
    rw [trimStart, List.isEmpty_iff.mp hempty, List.nil_append]
  · exact ⟨s, rfl, hs⟩

theorem trim_append_of_blank {s : Text} (hs : ∀ c ∈ s, isBlank c = true) (t : Text) :
    trim (s ++ t) = trim t := by
  rw [trim, trim, trimStart_append_of_blank hs]

theorem getLast?_trimEnd (t : Text) : (trimEnd t).getLast?.any isBlank = false := by
  rw [trimEnd, List.getLast?_reverse]
  exact head?_trimStart t.reverse

/-- What is trimmed at the end are blanks. -/
theorem exists_trimEnd (t : Text) :
    ∃ blanks, t = trimEnd t ++ blanks ∧ ∀ c ∈ blanks, isBlank c = true := by
  refine ⟨(t.reverse.takeWhile isBlank).reverse, ?_, fun c hc => ?_⟩
  · rw [trimEnd, ← List.reverse_append, List.takeWhile_append_dropWhile, List.reverse_reverse]
  · exact List.all_eq_true.mp List.all_takeWhile c (List.mem_reverse.mp hc)

/-- What is trimmed at the two ends are blanks. -/
theorem exists_trim (t : Text) :
    ∃ trailing, t = t.takeWhile isBlank ++ (trim t ++ trailing) ∧
      ∀ c ∈ t.takeWhile isBlank ++ trailing, isBlank c = true := by
  obtain ⟨trailing, hend, htrailing⟩ := exists_trimEnd (trimStart t)
  refine ⟨trailing, ?_, ?_⟩
  · rw [trim, ← hend, trimStart, List.takeWhile_append_dropWhile]
  · exact List.forall_mem_append.mpr ⟨List.all_eq_true.mp List.all_takeWhile, htrailing⟩

theorem trimStart_append_of_head? {t : Text} (ht : t.head?.any isBlank = false) (s : Text) :
    trimStart (s ++ t) = trimStart s ++ t := by
  induction s with
  | nil => exact trimStart_of_head? ht
  | cons c s ih =>
      cases hc : isBlank c with
      | true => rw [List.cons_append, trimStart_blank hc, trimStart_blank hc, ih]
      | false =>
          rw [trimStart_of_head? (t := c :: s) (by simpa using hc),
            trimStart_of_head? (t := c :: s ++ t) (by simpa using hc)]

theorem trimEnd_append_of_getLast? {s : Text} (hs : s.getLast?.any isBlank = false) (t : Text) :
    trimEnd (s ++ t) = s ++ trimEnd t := by
  by_cases ht : trimEnd t = []
  · have hdrop : t.reverse.dropWhile isBlank = [] := by simpa [trimEnd] using ht
    have hstay := trimEnd_of_getLast? hs
    rw [trimEnd] at hstay
    rw [trimEnd, List.reverse_append, List.dropWhile_append, hdrop, ht]
    simpa using hstay
  · exact trimEnd_append ht

/-- Trimming reaches no further than to a text between characters that are no blanks. -/
theorem trim_around {s : Text} (hfirst : s.head?.any isBlank = false)
    (hlast : s.getLast?.any isBlank = false) (hne : s ≠ []) (front behind : Text) :
    trim (front ++ (s ++ behind)) = trimStart front ++ (s ++ trimEnd behind) := by
  have hhead : (s ++ behind).head?.any isBlank = false := by
    cases s with
    | nil => exact absurd rfl hne
    | cons c s => exact hfirst
  have hend : (trimStart front ++ s).getLast?.any isBlank = false := by
    rw [List.getLast?_append, List.getLast?_eq_some_getLast hne, Option.some_or,
      ← List.getLast?_eq_some_getLast hne]
    exact hlast
  rw [trim, trimStart_append_of_head? hhead, ← List.append_assoc, trimEnd_append_of_getLast? hend,
    List.append_assoc]

theorem head?_trimEnd {p : Char → Bool} {t : Text} (h : t.head?.any p = false) :
    (trimEnd t).head?.any p = false := by
  obtain ⟨blanks, hsplit, -⟩ := exists_trimEnd t
  cases htrim : trimEnd t with
  | nil => rfl
  | cons c rest =>
      rw [hsplit, htrim] at h
      exact h

theorem getLast?_trimStart {p : Char → Bool} {t : Text} (h : t.getLast?.any p = false) :
    (trimStart t).getLast?.any p = false := by
  obtain ⟨front, hsplit⟩ : trimStart t <:+ t := List.dropWhile_suffix _
  by_cases hnil : trimStart t = []
  · rw [hnil]
    rfl
  · rwa [← hsplit, List.getLast?_append, List.getLast?_eq_some_getLast hnil, Option.some_or,
      ← List.getLast?_eq_some_getLast hnil] at h

theorem trimStart_blanks {s : Text} (hs : ∀ c ∈ s, isBlank c = true) : trimStart s = [] := by
  have h := trimStart_append_of_blank hs []
  rwa [List.append_nil] at h

theorem trimEnd_blanks {s : Text} (hs : ∀ c ∈ s, isBlank c = true) : trimEnd s = [] := by
  have h := trimStart_blanks (s := s.reverse) (by simpa using hs)
  rw [trimEnd, ← trimStart, h]
  rfl

/-- Either end of a text may be trimmed first. -/
theorem trimEnd_trimStart (t : Text) : trimEnd (trimStart t) = trimStart (trimEnd t) := by
  obtain ⟨blanks, hsplit, hblanks⟩ := exists_trimEnd t
  have hlast := getLast?_trimEnd t
  generalize trimEnd t = s at hsplit hlast
  subst hsplit
  by_cases hs : trimStart s = []
  · have hstart : trimStart (s ++ blanks) = [] := by
      have hall : ∀ c ∈ s ++ blanks, isBlank c = true := by
        intro c hc
        rcases List.mem_append.mp hc with hc | hc
        · have hsplit := List.takeWhile_append_dropWhile (p := isBlank) (l := s)
          rw [← trimStart, hs, List.append_nil] at hsplit
          rw [← hsplit] at hc
          exact List.all_eq_true.mp List.all_takeWhile c hc
        · exact hblanks c hc
      exact trimStart_blanks hall
    rw [hstart, hs]
    rfl
  · rw [trimStart_append hs, trimEnd_append_of_getLast? (getLast?_trimStart hlast),
      trimEnd_blanks hblanks, List.append_nil]

/-- A text between characters that are no blanks stays as it is. -/
theorem trim_of_ends {t : Text} (hfirst : t.head?.any isBlank = false)
    (hlast : t.getLast?.any isBlank = false) : trim t = t := by
  rw [trim, trimStart_of_head? hfirst, trimEnd_of_getLast? hlast]

@[simp] theorem trim_trim (t : Text) : trim (trim t) = trim t :=
  trim_of_ends (head?_trimEnd (head?_trimStart t)) (getLast?_trimEnd (trimStart t))

/-! ## Words at the ends -/

/-- The text begins with a word. -/
def StartsWord (t : Text) : Prop := ∃ c, t.head? = some c ∧ isWordChar c = true

/-- The text ends in a word. -/
def EndsWord (t : Text) : Prop := ∃ c, t.getLast? = some c ∧ isWordChar c = true

section Ends

variable {s t w : Text}

theorem IsWord.startsWord (hw : IsWord w) : StartsWord w := by
  obtain ⟨hne, hchars⟩ := hw
  cases w with
  | nil => exact absurd rfl hne
  | cons c w => exact ⟨c, rfl, hchars c (by simp)⟩

theorem IsWord.endsWord (hw : IsWord w) : EndsWord w := by
  obtain ⟨hne, hchars⟩ := hw
  exact ⟨w.getLast hne, List.getLast?_eq_some_getLast hne, hchars _ (List.getLast_mem hne)⟩

theorem StartsWord.append (hs : StartsWord s) (t : Text) : StartsWord (s ++ t) := by
  obtain ⟨c, hc, hword⟩ := hs
  exact ⟨c, by rw [List.head?_append, hc, Option.some_or], hword⟩

theorem EndsWord.behind (ht : EndsWord t) (s : Text) : EndsWord (s ++ t) := by
  obtain ⟨c, hc, hword⟩ := ht
  exact ⟨c, by rw [List.getLast?_append, hc, Option.some_or], hword⟩

theorem StartsWord.head?_any (ht : StartsWord t) : t.head?.any isBlank = false := by
  obtain ⟨c, hc, hword⟩ := ht
  rw [hc, Option.any_some, isBlank_of_isWordChar hword]

theorem StartsWord.isBlankText_eq (ht : StartsWord t) : isBlankText t = false := by
  obtain ⟨c, hc, hword⟩ := ht
  rw [isBlankText, List.all_eq_false]
  refine ⟨c, List.mem_of_head? hc, ?_⟩
  simp [isBlank_of_isWordChar hword]

theorem EndsWord.getLast?_any (ht : EndsWord t) : t.getLast?.any isBlank = false := by
  obtain ⟨c, hc, hword⟩ := ht
  rw [hc, Option.any_some, isBlank_of_isWordChar hword]

theorem StartsWord.intercalate {separator : Text} {parts : List Text} (hs : StartsWord s) :
    StartsWord (separator.intercalate (s :: parts)) := by
  cases parts with
  | nil => rwa [List.intercalate_singleton]
  | cons u parts =>
      rw [List.intercalate_cons_cons, List.append_assoc]
      exact hs.append _

theorem EndsWord.intercalate {separator : Text} {parts : List Text} (hne : parts ≠ [])
    (hparts : ∀ s ∈ parts, EndsWord s) : EndsWord (separator.intercalate parts) := by
  induction parts with
  | nil => exact absurd rfl hne
  | cons s parts ih =>
      cases parts with
      | nil =>
          rw [List.intercalate_singleton]
          exact hparts s (by simp)
      | cons u parts =>
          rw [List.intercalate_cons_cons]
          exact (ih (by simp) fun v hv => hparts v (List.mem_cons_of_mem _ hv)).behind _

/-- A text from a word to a word has no blanks to trim. -/
theorem StartsWord.trim_eq (hfirst : StartsWord t) (hlast : EndsWord t) : trim t = t :=
  trim_of_ends hfirst.head?_any hlast.getLast?_any

end Ends

/-! ## Words between blanks -/

/-- A text without blanks. -/
def Solid (s : Text) : Prop := ∀ c ∈ s, isBlank c = false

theorem IsWord.solid {w : Text} (h : IsWord w) : Solid w := h.isBlank

theorem Over.solid {marks t : Text} (h : Over marks t)
    (hmarks : marks.all (fun c => decide (isBlank c = false)) = true) : Solid t :=
  h.forall_mem (forall_mem_of_all hmarks) fun _ hc => isBlank_of_isWordChar hc

theorem Solid.append {s t : Text} (hs : Solid s) (ht : Solid t) : Solid (s ++ t) := by
  intro c hc
  rcases List.mem_append.mp hc with hc | hc
  · exact hs c hc
  · exact ht c hc

/-- A solid text in front of the end or a blank is one word. -/
theorem words_solid_append {s t : Text} (hs : Solid s) (hne : s ≠ [])
    (ht : t.head?.all isBlank = true) : words (s ++ t) = s :: words t := by
  induction s with
  | nil => exact absurd rfl hne
  | cons c s ih =>
      have hc : isBlank c = false := hs c (by simp)
      rw [List.cons_append, words, if_neg (by simp [hc])]
      cases s with
      | nil => rw [List.nil_append, if_pos ht]
      | cons d s =>
          have hd : isBlank d = false := hs d (by simp)
          have hrest := ih (fun e he => hs e (List.mem_cons_of_mem _ he)) (by simp)
          rw [if_neg (by simp [hd]), hrest, consWord_cons]

theorem words_solid {s : Text} (hs : Solid s) (hne : s ≠ []) : words s = [s] := by
  have h := words_solid_append (t := []) hs hne rfl
  rwa [List.append_nil] at h

/-- The first word begins with the first character that is no blank. -/
theorem exists_words_cons {c : Char} (hc : isBlank c = false) (t : Text) :
    ∃ word rest, words (c :: t) = (c :: word) :: rest := by
  rw [words, if_neg (by simp [hc])]
  split
  · exact ⟨_, _, rfl⟩
  · cases words t with
    | nil => exact ⟨_, _, rfl⟩
    | cons word rest => exact ⟨_, _, rfl⟩

/-- A blank parts the words before it from those behind it. -/
theorem words_append_blank {c : Char} (hc : isBlank c = true) (s t : Text) :
    words (s ++ c :: t) = words s ++ words t := by
  induction s with
  | nil => exact words_blank hc t
  | cons d s ih =>
      rw [List.cons_append, words, words, ih]
      have hhead : ((s ++ c :: t).head?.all isBlank) = s.head?.all isBlank := by
        cases s with
        | nil => simpa using hc
        | cons e s => rfl
      rw [hhead]
      cases hd : isBlank d with
      | true => rfl
      | false =>
          cases s with
          | nil => rfl
          | cons e s =>
              cases he : isBlank e with
              | true => simp [he]
              | false =>
                  obtain ⟨word, rest, hwords⟩ := exists_words_cons he s
                  rw [hwords]
                  simp [he]

/-- A solid text joins the first word of what follows it without a blank. -/
theorem words_solid_append_solid {s t : Text} (hs : Solid s) {word : Text} {rest : List Text}
    (ht : t.head?.any isBlank = false) (hwords : words t = word :: rest) :
    words (s ++ t) = (s ++ word) :: rest := by
  induction s with
  | nil => exact hwords
  | cons c s ih =>
      have hc : isBlank c = false := hs c (by simp)
      have hrest := ih fun e he => hs e (List.mem_cons_of_mem _ he)
      have hhead : ((s ++ t).head?.all isBlank) = false := by
        cases s with
        | nil =>
            cases t with
            | nil => simp at hwords
            | cons d t => simpa using ht
        | cons d s => simpa using hs d (by simp)
      rw [List.cons_append, words, if_neg (by simp [hc]), if_neg (Bool.eq_false_iff.mp hhead),
        hrest, consWord_cons, List.cons_append]

/-- The first word of a text stands behind blanks and ends at a blank or at the end. -/
theorem exists_of_words_cons {t word : Text} {rest : List Text} (h : words t = word :: rest) :
    ∃ blanks behind, t = blanks ++ (word ++ behind) ∧ (∀ c ∈ blanks, isBlank c = true) ∧
      Solid word ∧ word ≠ [] ∧ behind.head?.all isBlank = true ∧ words behind = rest := by
  induction t with
  | nil => cases h
  | cons c t ih =>
      cases hc : isBlank c with
      | true =>
          rw [words_blank hc] at h
          obtain ⟨blanks, behind, rfl, hblanks, hword⟩ := ih h
          exact ⟨c :: blanks, behind, rfl, List.forall_mem_cons.mpr ⟨hc, hblanks⟩, hword⟩
      | false =>
          have hsplit := List.takeWhile_append_dropWhile (p := fun d => !isBlank d) (l := c :: t)
          have hsolid : Solid ((c :: t).takeWhile fun d => !isBlank d) := fun d hd => by
            simpa using List.all_eq_true.mp (List.all_takeWhile (p := fun d => !isBlank d)) d hd
          have hne : ((c :: t).takeWhile fun d => !isBlank d) ≠ [] := by
            rw [List.takeWhile_cons_of_pos (by simp [hc])]
            exact List.cons_ne_nil _ _
          have hend : ((c :: t).dropWhile fun d => !isBlank d).head?.all isBlank = true := by
            cases hdrop : (c :: t).dropWhile fun d => !isBlank d with
            | nil => rfl
            | cons d behind =>
                have hhead := List.head_dropWhile_not (fun d => !isBlank d) (l := c :: t)
                  (by rw [hdrop]; exact List.cons_ne_nil _ _)
                simpa [hdrop] using hhead
          have hwords := words_solid_append hsolid hne hend
          rw [hsplit, h] at hwords
          obtain ⟨rfl, rfl⟩ := List.cons.inj hwords
          exact ⟨[], _, hsplit.symm, List.forall_mem_nil _, hsolid, hne, hend, rfl⟩

/-- Every word of a text stands at its start or behind a blank, and ends at a blank or at
the end. -/
theorem exists_of_words {front rest : List Text} {t word : Text}
    (h : words t = front ++ word :: rest) :
    ∃ s behind, t = s ++ (word ++ behind) ∧ (s = [] ∨ ∃ u c, s = u ++ [c] ∧ isBlank c = true) ∧
      Solid word ∧ word ≠ [] ∧ behind.head?.all isBlank = true ∧ words behind = rest := by
  induction front generalizing t with
  | nil =>
      obtain ⟨blanks, behind, rfl, hblanks, hword⟩ := exists_of_words_cons h
      refine ⟨blanks, behind, rfl, ?_, hword⟩
      cases blanks.eq_nil_or_concat with
      | inl hnil => exact .inl hnil
      | inr hconcat =>
          obtain ⟨u, c, rfl⟩ := hconcat
          exact .inr ⟨u, c, List.concat_eq_append, hblanks c (by simp)⟩
  | cons first front ih =>
      obtain ⟨blanks, behind, rfl, -, -, -, hend, hwords⟩ := exists_of_words_cons h
      obtain ⟨s, after, rfl, hs, hsolid, hne, hrest⟩ := ih hwords
      refine ⟨blanks ++ (first ++ s), after, by simp, .inr ?_, hsolid, hne, hrest⟩
      rcases hs with rfl | ⟨u, c, rfl, hc⟩
      · cases word with
        | nil => exact absurd rfl hne
        | cons c word =>
            have hblank : isBlank c = true := by simpa using hend
            rw [hsolid c (by simp)] at hblank
            cases hblank
      · exact ⟨blanks ++ (first ++ u), c, by simp, hc⟩

/-- Every character of a text is a blank or stands in a word. -/
theorem mem_words {t : Text} {c : Char} (hc : c ∈ t) :
    isBlank c = true ∨ ∃ word ∈ words t, c ∈ word := by
  induction t with
  | nil => cases hc
  | cons d t ih =>
      cases hd : isBlank d with
      | true =>
          rw [words_blank hd]
          rcases List.mem_cons.mp hc with rfl | hc
          · exact .inl hd
          · exact ih hc
      | false =>
          refine (List.mem_cons.mp hc).elim (fun heq => .inr ?_) fun hrest => ?_
          · subst heq
            obtain ⟨word, rest, hwords⟩ := exists_words_cons hd t
            rw [hwords]
            exact ⟨_, List.mem_cons_self, List.mem_cons_self⟩
          · refine (ih hrest).imp_right fun ⟨word, hword, hmem⟩ => ?_
            rw [words, if_neg (by simp [hd])]
            split
            · exact ⟨word, List.mem_cons_of_mem _ hword, hmem⟩
            · cases hwords : words t with
              | nil =>
                  rw [hwords] at hword
                  cases hword
              | cons first rest =>
                  rw [hwords] at hword
                  rw [consWord_cons]
                  rcases List.mem_cons.mp hword with rfl | hword
                  · exact ⟨_, List.mem_cons_self, List.mem_cons_of_mem _ hmem⟩
                  · exact ⟨word, List.mem_cons_of_mem _ hword, hmem⟩

/-- Words with spaces between them are read back. -/
theorem words_intercalate {ws : List Text} (hws : ∀ w ∈ ws, Solid w ∧ w ≠ []) :
    words ([' '].intercalate ws) = ws := by
  induction ws with
  | nil => rfl
  | cons w ws ih =>
      obtain ⟨hsolid, hne⟩ := hws w (by simp)
      cases ws with
      | nil => rw [List.intercalate_singleton, words_solid hsolid hne]
      | cons v ws =>
          rw [List.intercalate_cons_cons, List.append_assoc, List.singleton_append,
            words_append_blank rfl, words_solid hsolid hne,
            ih fun u hu => hws u (List.mem_cons_of_mem _ hu), List.singleton_append]

end ClassDiagram.Text
