import ClassDiagram.Catalogue.Braces
import ClassDiagram.Proofs.Text.Word

/-!
# Blanks of the dense form

All blanks of a dense text are spaces (`spaced_dense`). What is cut out of such a text keeps
this property, since it has no character that the text does not have. The words of a text are
tokens: they are not empty and have no blanks at all.
-/

namespace ClassDiagram

namespace Text

/-- The only blanks of the text are spaces. -/
def Spaced (t : Text) : Prop := ∀ c ∈ t, isBlank c = true → c = ' '

/-- A text that has no blanks and is not empty. -/
def IsToken (t : Text) : Prop := t ≠ [] ∧ Solid t

instance (t : Text) : Decidable (IsToken t) :=
  decidable_of_iff (t ≠ [] ∧ t.all (fun c => !isBlank c) = true)
    (and_congr_right' (by simp [Solid]))

section Spaced

variable {s t : Text}

theorem Spaced.mono (h : Spaced t) (hs : s ⊆ t) : Spaced s := fun c hc => h c (hs hc)

theorem Spaced.append (hs : Spaced s) (ht : Spaced t) : Spaced (s ++ t) := by
  intro c hc
  rcases List.mem_append.mp hc with hc | hc
  · exact hs c hc
  · exact ht c hc

theorem Solid.spaced (h : Solid t) : Spaced t := by
  intro c hc hblank
  rw [h c hc] at hblank
  cases hblank

/-- No line is broken in a text whose blanks are spaces. -/
theorem Spaced.lineFeed_not_mem (h : Spaced t) : '\n' ∉ t := by
  intro hmem
  have heq : '\n' = ' ' := h '\n' hmem rfl
  cases heq

theorem trimStart_subset (t : Text) : trimStart t ⊆ t := (List.dropWhile_sublist _).subset

theorem trimEnd_subset (t : Text) : trimEnd t ⊆ t := by
  obtain ⟨blanks, hsplit, -⟩ := exists_trimEnd t
  intro c hc
  rw [hsplit]
  exact List.mem_append_left _ hc

theorem trim_subset (t : Text) : trim t ⊆ t :=
  List.Subset.trans (trimEnd_subset _) (trimStart_subset t)

theorem token_of_mem_words {word : Text} (h : word ∈ words t) : IsToken word := by
  obtain ⟨front, rest, hsplit⟩ := List.append_of_mem h
  obtain ⟨_, _, -, -, hsolid, hne, -⟩ := exists_of_words hsplit
  exact ⟨hne, hsolid⟩

end Spaced

/-! ## Tokens without marks -/

/-- A token that lacks all of some marks. -/
structure IsTokenWithout (marks t : Text) : Prop where
  token : IsToken t
  unmarked : ∀ c ∈ t, c ∉ marks

instance (marks t : Text) : Decidable (IsTokenWithout marks t) :=
  decidable_of_iff (IsToken t ∧ t.all (fun c => !marks.contains c) = true)
    ⟨fun h => ⟨h.1, by simpa using h.2⟩, fun h => ⟨h.token, by simpa using h.unmarked⟩⟩

section Tokens

variable {marks w : Text} {ws : List Text}

theorem IsWord.token_without (h : IsWord w) (hmarks : ∀ c ∈ marks, isWordChar c = false) :
    IsTokenWithout marks w where
  token := ⟨h.ne_nil, h.solid⟩
  unmarked := fun c hc hmem => h.not_mem (hmarks c hmem) hc

theorem IsTokenWithout.mono {more : Text} (h : IsTokenWithout more w) (hmarks : marks ⊆ more) :
    IsTokenWithout marks w where
  token := h.token
  unmarked := fun c hc hmem => h.unmarked c hc (hmarks hmem)

theorem words_tokens (hws : ∀ w ∈ ws, IsTokenWithout marks w) :
    words ([' '].intercalate ws) = ws :=
  words_intercalate fun w hw => ⟨(hws w hw).token.2, (hws w hw).token.1⟩

/-- Tokens without marks have none with spaces between them either. -/
theorem unmarked_tokens (hws : ∀ w ∈ ws, IsTokenWithout marks w) (hspace : ' ' ∉ marks) :
    ∀ c ∈ [' '].intercalate ws, c ∉ marks :=
  forall_mem_intercalate (List.forall_mem_singleton.mpr hspace) fun w hw => (hws w hw).unmarked

end Tokens

end Text

/-! ## The steps to the dense form -/

namespace Source

open Text

theorem spaced_collapseBlanks (t : Text) : Spaced (collapseBlanks t) := by
  induction t with
  | nil =>
      intro c hc
      cases hc
  | cons c t ih =>
      rw [collapseBlanks]
      split
      · split
        · exact ih
        · exact List.forall_mem_cons.mpr ⟨fun _ => rfl, ih⟩
      · rename_i hc
        exact List.forall_mem_cons.mpr ⟨fun hblank => absurd hblank hc, ih⟩

theorem Assignment.spaced_spaced {a : Assignment} (h : Spaced (a.gap ++ a.lead ++ '=' :: a.trail)) :
    Spaced a.spaced := by
  rw [Assignment.spaced]
  split
  · intro c hc hblank
    obtain rfl | rfl | rfl : c = ' ' ∨ c = '=' ∨ c = ' ' := by simpa using hc
    · rfl
    · cases hblank
    · rfl
  · exact h

theorem spaced_spaceAssignments {t : Text} (h : Spaced t) : Spaced (spaceAssignments t) := by
  fun_induction spaceAssignments t with
  | case1 => exact h
  | case2 c t a ha ih =>
      rw [Assignment.source_here? ha] at h
      apply Spaced.append
      · apply Assignment.spaced_spaced
        apply h.mono
        intro d hd
        simp only [List.mem_append, List.mem_cons] at hd ⊢
        grind
      · apply ih
        apply h.mono
        intro d hd
        simp [hd]
  | case3 c t hnone ih =>
      obtain ⟨hc, ht⟩ := List.forall_mem_cons.mp h
      exact List.forall_mem_cons.mpr ⟨hc, ih ht⟩

/-- The only blanks of a normalized text are spaces. -/
theorem spaced_normalize (t : Text) : Spaced (normalize t) := by
  rw [normalize]
  refine Spaced.mono ?_ (trim_subset _)
  apply spaced_spaceAssignments
  apply (spaced_collapseBlanks _).mono
  exact (tighten_sublist _ _).subset

/-- The only blanks of a dense text are spaces. -/
theorem spaced_dense (t : Text) : Spaced (dense t) := spaced_normalize _

end Source

end ClassDiagram
