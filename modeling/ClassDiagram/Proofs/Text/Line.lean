import ClassDiagram.Text.Basic

/-!
# Texts cut at a character

A text is cut at each character of some kind. The pieces of a text with such a character in
it are those of its two sides (`splitWhere_append_cut`), and a text without any is one piece.
The lines of a text are its pieces between line feeds.
-/

namespace ClassDiagram.Text

section Pieces

variable {isCut : Char → Bool} {s t piece : Text} {c : Char}

theorem splitWhere_ne_nil (isCut : Char → Bool) (t : Text) : splitWhere isCut t ≠ [] := by
  cases t with
  | nil => exact List.cons_ne_nil _ _
  | cons c t =>
      rw [splitWhere]
      split
      · exact List.cons_ne_nil _ _
      · cases splitWhere isCut t with
        | nil => exact List.cons_ne_nil _ _
        | cons piece pieces => exact List.cons_ne_nil _ _

theorem splitWhere_append_cut (hc : isCut c = true) (s t : Text) :
    splitWhere isCut (s ++ c :: t) = splitWhere isCut s ++ splitWhere isCut t := by
  induction s with
  | nil => simp [splitWhere, hc]
  | cons d s ih =>
      obtain ⟨piece, pieces, hpieces⟩ := List.exists_cons_of_ne_nil (splitWhere_ne_nil isCut s)
      rw [List.cons_append, splitWhere, splitWhere, ih, hpieces]
      split
      · rfl
      · rfl

theorem splitWhere_of_forall (h : ∀ c ∈ t, isCut c = false) : splitWhere isCut t = [t] := by
  induction t with
  | nil => rfl
  | cons c t ih =>
      obtain ⟨hc, ht⟩ := List.forall_mem_cons.mp h
      rw [splitWhere, if_neg (Bool.eq_false_iff.mp hc), ih ht, consWord_cons]

/-- Texts joined at a cut are the pieces. -/
theorem splitWhere_intercalate {parts : List Text} (hne : parts ≠ []) (hc : isCut c = true)
    (h : ∀ part ∈ parts, ∀ d ∈ part, isCut d = false) :
    splitWhere isCut ([c].intercalate parts) = parts := by
  induction parts with
  | nil => exact absurd rfl hne
  | cons part parts ih =>
      obtain ⟨hpart, hparts⟩ := List.forall_mem_cons.mp h
      cases parts with
      | nil => rw [List.intercalate_singleton, splitWhere_of_forall hpart]
      | cons next parts =>
          rw [List.intercalate_cons_cons, List.append_assoc, List.singleton_append,
            splitWhere_append_cut hc, splitWhere_of_forall hpart, ih (List.cons_ne_nil _ _) hparts,
            List.singleton_append]

/-- A piece has no character that the text does not have. -/
theorem subset_of_mem_splitWhere (h : piece ∈ splitWhere isCut t) : piece ⊆ t := by
  induction t generalizing piece with
  | nil =>
      cases List.mem_singleton.mp h
      exact List.Subset.refl _
  | cons c t ih =>
      obtain ⟨first, rest, hpieces⟩ := List.exists_cons_of_ne_nil (splitWhere_ne_nil isCut t)
      have hfirst : first ⊆ t := ih (by rw [hpieces]; exact List.mem_cons_self)
      have hrest : ∀ other ∈ rest, other ⊆ t := fun other hother =>
        ih (by rw [hpieces]; exact List.mem_cons_of_mem _ hother)
      rw [splitWhere, hpieces] at h
      split at h
      · obtain rfl | rfl | hmem : piece = [] ∨ piece = first ∨ piece ∈ rest := by simpa using h
        · exact List.nil_subset _
        · exact List.subset_cons_of_subset _ hfirst
        · exact List.subset_cons_of_subset _ (hrest piece hmem)
      · obtain rfl | hmem : piece = c :: first ∨ piece ∈ rest := by simpa using h
        · exact List.cons_subset_cons _ hfirst
        · exact List.subset_cons_of_subset _ (hrest piece hmem)

end Pieces

/-! ## Joined texts -/

section Joined

variable {separator : Text} {texts : List Text}

/-- What is true of the characters of the separator and of all texts is true of those of what
they are joined to. -/
theorem forall_mem_intercalate {p : Char → Prop} (hseparator : ∀ c ∈ separator, p c)
    (h : ∀ t ∈ texts, ∀ c ∈ t, p c) : ∀ c ∈ separator.intercalate texts, p c := by
  induction texts with
  | nil => exact fun c hc => absurd hc List.not_mem_nil
  | cons t texts ih =>
      obtain ⟨ht, hrest⟩ := List.forall_mem_cons.mp h
      cases texts with
      | nil =>
          rw [List.intercalate_singleton]
          exact ht
      | cons u texts =>
          rw [List.intercalate_cons_cons]
          exact List.forall_mem_append.mpr ⟨List.forall_mem_append.mpr ⟨ht, hseparator⟩, ih hrest⟩

/-- What stands neither in the separator nor in any of the texts does not stand in what they are
joined to. -/
theorem not_mem_intercalate {c : Char} (hseparator : c ∉ separator) (h : ∀ t ∈ texts, c ∉ t) :
    c ∉ separator.intercalate texts := by
  intro hc
  have hne : ∀ d ∈ separator.intercalate texts, d ≠ c :=
    forall_mem_intercalate (fun d hd heq => hseparator (heq ▸ hd))
      fun t ht d hd heq => h t ht (heq ▸ hd)
  exact hne c hc rfl

end Joined

/-! ## Lines -/

/-- The lines of a text: its pieces between line feeds. -/
def lines (t : Text) : List Text := splitWhere (· == '\n') t

section Lines

variable {s t : Text}

theorem lines_append_lineFeed (s t : Text) : lines (s ++ '\n' :: t) = lines s ++ lines t :=
  splitWhere_append_cut rfl s t

theorem lines_of_not_mem (h : '\n' ∉ t) : lines t = [t] := by
  apply splitWhere_of_forall
  rintro c hc
  rw [beq_eq_false_iff_ne]
  rintro rfl
  exact h hc

@[simp] theorem lines_nil : lines [] = [[]] := rfl

end Lines

end ClassDiagram.Text
