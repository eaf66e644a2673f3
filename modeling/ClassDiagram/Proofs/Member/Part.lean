import ClassDiagram.Catalogue.File
import ClassDiagram.Proofs.Member.Annotation
import ClassDiagram.Proofs.Member.Scan
import ClassDiagram.Proofs.Source.Blank
import ClassDiagram.Proofs.Text.Line

/-!
# Where the characters of members come from

From the body of a type down to the name of a parameter, texts are only cut: every piece
consists of characters of the text that it is cut from. So what holds of all characters of
a source holds of all characters of its members.
-/

namespace ClassDiagram

/-! ## The body of a type -/

namespace Declaration

/-- The members are cut out of what has been read of the piece and of what is read on. -/
theorem members_read_subset (depth : Nat) (declares : Bool) (seen : Text) (gs : List Glyph) :
    (Body.read depth declares seen gs).members ⊆ seen ++ Glyph.chars gs := by
  have hblock (declares : Bool) (t : Text) : (Piece.block declares t).memberText ⊆ t := by
    cases declares with
    | true => exact List.nil_subset _
    | false => exact List.Subset.refl _
  have hlast (seen : Text) (gs : List Glyph) (behind : Option (List Glyph)) :
      (Body.mk [.member seen.reverse] behind).members ⊆ seen ++ Glyph.chars gs := by
    intro c hc
    have hseen : c ∈ seen := by simpa [Body.members, Piece.memberText] using hc
    exact List.mem_append_left _ hseen
  have hnext (g : Glyph) (seen : Text) (gs : List Glyph) :
      g.char :: seen ++ Glyph.chars gs ⊆ seen ++ Glyph.chars (g :: gs) := by
    simp
  have hpiece {piece : Text} {g : Glyph} {seen : Text} (gs : List Glyph)
      (h : piece ⊆ (g.char :: seen).reverse) : piece ⊆ seen ++ Glyph.chars (g :: gs) := by
    apply List.Subset.trans h
    simp
  have hbehind (g : Glyph) (seen : Text) (gs : List Glyph) :
      [] ++ Glyph.chars gs ⊆ seen ++ Glyph.chars (g :: gs) := by
    simp
  fun_induction Body.read depth declares seen gs with
  | case1 depth declares seen => exact hlast seen [] none
  | case2 declares seen g gs _ ih => exact List.Subset.trans ih (hnext g seen gs)
  | case3 declares seen g gs _ _ ih => exact List.Subset.trans ih (hnext g seen gs)
  | case4 declares seen g gs => exact hlast seen (g :: gs) (some gs)
  | case5 declares seen g gs _ ih =>
      rw [Body.members_withPiece]
      apply List.append_subset.mpr
      exact ⟨hpiece gs (hblock _ _), List.Subset.trans ih (hbehind g seen gs)⟩
  | case6 declares seen g gs _ _ ih => exact List.Subset.trans ih (hnext g seen gs)
  | case7 declares seen g gs _ ih =>
      rw [Body.members_withPiece]
      apply List.append_subset.mpr
      exact ⟨hpiece gs (List.Subset.refl _), List.Subset.trans ih (hbehind g seen gs)⟩
  | case8 depth declares seen g gs _ _ _ _ _ _ ih =>
      exact List.Subset.trans ih (hnext g seen gs)

theorem Header.members_subset (h : Header) : h.body.members ⊆ h.source := by
  intro c hc
  have hmem := members_read_subset _ _ _ _ hc
  rw [List.nil_append, Glyph.chars, List.map_drop, ← Glyph.chars, Text.chars_glyphs] at hmem
  exact List.mem_of_mem_drop hmem

end Declaration

/-! ## Records -/

namespace Member

/-- A step takes one character, and what it completes was taken before. -/
theorem Scan.step_subset (s : Scan) (g : Glyph) :
    (s.step g).1.seen ⊆ g.char :: s.seen ∧
      ∀ segment ∈ (s.step g).2, segment.text ⊆ g.char :: s.seen := by
  rcases s.step_cases g with ⟨hnone, hseen⟩ | ⟨segment, hstep, htext, -⟩
  · rw [hnone, hseen]
    exact ⟨List.Subset.refl _, by rintro _ ⟨⟩⟩
  · rw [hstep]
    refine ⟨List.nil_subset _, ?_⟩
    rintro _ ⟨⟩
    rw [htext]
    exact List.reverse_subset.mpr (List.Subset.refl _)

theorem Scan.segments_subset {s : Scan} {gs : List Glyph} {segment : Segment}
    (h : segment ∈ s.segments gs) : segment.text ⊆ s.seen ++ Glyph.chars gs := by
  induction gs generalizing s with
  | nil => cases h
  | cons g gs ih =>
      obtain ⟨hseen, hcomplete⟩ := s.step_subset g
      have hfront : g.char :: s.seen ⊆ s.seen ++ Glyph.chars (g :: gs) := by
        simp
      rcases List.mem_append.mp h with hnow | hlater
      · exact List.Subset.trans (hcomplete segment (Option.mem_toList.mp hnow)) hfront
      · apply List.Subset.trans (ih hlater)
        apply List.append_subset.mpr
        refine ⟨List.Subset.trans hseen hfront, ?_⟩
        simp

theorem value_subset {t : Text} {r : Record} (h : r ∈ records t) : r.value ⊆ t := by
  obtain ⟨segment, hsegment, hrecord⟩ := List.mem_filterMap.mp h
  have htext : segment.text ⊆ t := by
    have hsubset := Scan.segments_subset hsegment
    rwa [Text.chars_glyphs] at hsubset
  rw [Segment.value_of_record? hrecord]
  exact List.Subset.trans (Text.trim_subset _) htext

/-! ## The parts of a record -/

theorem splitGroup_fst_subset (depth : Nat) (t : Text) : (splitGroup depth t).1 ⊆ t := by
  induction t generalizing depth with
  | nil => exact List.Subset.refl _
  | cons c t ih =>
      simp only [splitGroup]
      split
      · exact List.nil_subset _
      · exact List.cons_subset_cons _ (ih _)

theorem dropSemicolon_subset (t : Text) : dropSemicolon t ⊆ t := by
  rw [dropSemicolon]
  split
  · exact (List.dropLast_sublist t).subset
  · exact List.Subset.refl _

end Member

theorem Glyph.dropNeedle?_subset {needle : Text} {gs after : List Glyph}
    (h : dropNeedle? needle gs = some after) : after ⊆ gs := by
  fun_induction dropNeedle? needle gs with
  | case1 gs =>
      cases h
      exact List.Subset.refl _
  | case2 => cases h
  | case3 needle g gs ih => exact List.subset_cons_of_subset _ (ih h)
  | case4 => cases h

theorem Glyph.cutOutside?_subset {needle : Text} {gs before after : List Glyph}
    (h : cutOutside? needle gs = some (before, after)) : before ⊆ gs ∧ after ⊆ gs := by
  induction gs generalizing before with
  | nil =>
      rw [cutOutside?] at h
      split at h
      · cases h
        exact ⟨List.Subset.refl _, List.Subset.refl _⟩
      · cases h
  | cons g gs ih =>
      have hlater {found : List Glyph} (hcut : cutOutside? needle gs = some (found, after)) :
          g :: found ⊆ g :: gs ∧ after ⊆ g :: gs := by
        obtain ⟨hbefore, hafter⟩ := ih hcut
        exact ⟨List.cons_subset_cons _ hbefore, List.subset_cons_of_subset _ hafter⟩
      rw [cutOutside?] at h
      split at h
      · obtain ⟨⟨found, rest⟩, hcut, heq⟩ := Option.map_eq_some_iff.mp h
        cases heq
        exact hlater hcut
      · rename_i rest hdrop
        split at h
        · cases h
          exact ⟨List.nil_subset _, dropNeedle?_subset hdrop⟩
        · split at h
          · obtain ⟨⟨found, rest⟩, hcut, heq⟩ := Option.map_eq_some_iff.mp h
            cases heq
            exact hlater hcut
          · cases h

namespace Member

theorem splitValue_subset (record : Text) :
    (splitValue record).1 ⊆ record ∧ ∀ value ∈ (splitValue record).2, value ⊆ record := by
  have htext : dropAnnotations (dropSemicolon (Text.trim record)) ⊆ record := by
    apply List.Subset.trans (dropAnnotations_suffix _).subset
    exact List.Subset.trans (dropSemicolon_subset _) (Text.trim_subset record)
  have hchars {gs : List Glyph}
      (hgs : gs ⊆ (dropAnnotations (dropSemicolon (Text.trim record))).glyphs) :
      Glyph.chars gs ⊆ record := by
    have hmap := List.map_subset Glyph.char hgs
    rw [← Glyph.chars, ← Glyph.chars, Text.chars_glyphs] at hmap
    exact List.Subset.trans hmap htext
  rw [splitValue]
  split
  · rename_i before after hcut
    obtain ⟨hbefore, hafter⟩ := Glyph.cutOutside?_subset hcut
    refine ⟨hchars hbefore, ?_⟩
    rintro _ ⟨⟩
    exact List.Subset.trans (Text.trim_subset _) (hchars hafter)
  · exact ⟨htext, by rintro _ ⟨⟩⟩

theorem splitSignature?_subset {record lead list : Text}
    (h : splitSignature? record = some (lead, list)) : list ⊆ record := by
  have hsignature : ((dropAnnotations (Text.trim record)).takeWhile (· != '{')) ⊆ record := by
    apply List.Subset.trans (List.takeWhile_sublist _).subset
    exact List.Subset.trans (dropAnnotations_suffix _).subset (Text.trim_subset record)
  rw [splitSignature?] at h
  split at h
  · rename_i c group hdrop
    cases h
    have hgroup := (List.dropWhile_sublist (p := (· != '('))
      (l := (dropAnnotations (Text.trim record)).takeWhile (· != '{'))).subset
    rw [hdrop] at hgroup
    apply List.Subset.trans (splitGroup_fst_subset 0 group)
    exact List.Subset.trans (List.subset_of_cons_subset hgroup) hsignature
  · cases h

theorem subset_of_mem_parameterPieces {depth : Nat} {gs : List Glyph} {piece : Text}
    (h : piece ∈ parameterPieces depth gs) : piece ⊆ Glyph.chars gs := by
  induction gs generalizing depth piece with
  | nil =>
      cases List.mem_singleton.mp h
      exact List.Subset.refl _
  | cons g gs ih =>
      rw [parameterPieces] at h
      split at h
      · rcases List.mem_cons.mp h with rfl | hmem
        · exact List.nil_subset _
        · exact List.subset_cons_of_subset _ (ih hmem)
      · cases hrest : parameterPieces (bracketStep depth g) gs with
        | nil =>
            rw [hrest, Text.consWord_nil] at h
            cases List.mem_singleton.mp h
            simp
        | cons first rest =>
            rw [hrest, Text.consWord_cons] at h
            rcases List.mem_cons.mp h with rfl | hmem
            · exact List.cons_subset_cons _ (ih (by rw [hrest]; exact List.mem_cons_self))
            · exact List.subset_cons_of_subset _
                (ih (by rw [hrest]; exact List.mem_cons_of_mem _ hmem))

end Member

end ClassDiagram
