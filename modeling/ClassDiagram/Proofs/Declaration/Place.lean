import ClassDiagram.Proofs.Declaration.Leftover

/-!
# Where a header stands

The search for a header cuts a text at its marks and does not look at quotes. A mark inside a
literal therefore ends a run like any other one: the run behind it starts inside the literal,
and a brace that is quoted ends a header. No more than that brings a header into a literal
(`Header.in_literal_iff`), and a text whose literals hold no mark has all headers outside of
them.
-/

namespace ClassDiagram

/-- The character behind a part of a text is marked by what is open there. -/
theorem Text.glyph_mem (s : Text) (c : Char) (t : Text) :
    ⟨c, Quote.encloses (Quote.after none s) c⟩ ∈ (s ++ c :: t).glyphs := by
  rw [glyphs, glyphsFrom_append, glyphsFrom_cons]
  exact List.mem_append_right _ List.mem_cons_self

namespace Declaration

/-- A mark closes no literal and opens none. -/
theorem after_mark {c : Char} (hc : endsRun c = true) (s : Text) :
    Quote.after none (s ++ [c]) = Quote.after none s := by
  rw [Quote.after_append]
  exact Quote.after_unquoted (List.forall_mem_singleton.mpr (ofChar?_of_endsRun hc)) _

theorem encloses_mark {c : Char} (hc : endsRun c = true) (pending : Option Quote) :
    Quote.encloses pending c = pending.isSome := by
  rw [Quote.encloses, ofChar?_of_endsRun hc]
  cases pending <;> rfl

namespace Header

variable {t name : Text} {header : Header}

/-- The blanks in front of a header open no literal. -/
theorem after_lead (header : Header) :
    Quote.after none header.lead = Quote.after none header.before := by
  have hblanks : ∀ c ∈ header.run.takeWhile Text.isBlank, Text.isBlank c = true :=
    List.all_eq_true.mp List.all_takeWhile
  rw [lead, Quote.after_append,
    Quote.after_unquoted fun c hc => Text.ofChar?_of_isBlank (hblanks c hc)]

/-- The text from the start of a header on. A header without characters starts at its brace,
which is no quote either. -/
theorem exists_source (header : Header) :
    ∃ c rest, header.source = header.lead ++ c :: rest ∧
      Quote.ofChar? c = header.text.head?.bind Quote.ofChar? := by
  have hrun := List.takeWhile_append_dropWhile (p := Text.isBlank) (l := header.run)
  have hsource : header.source =
      header.lead ++ (Text.trimStart header.run ++ '{' :: header.behind) := by
    rw [lead, List.append_assoc, ← List.append_assoc (header.run.takeWhile _), Text.trimStart, hrun,
      source, List.append_assoc]
  rw [hsource, text, Text.trim]
  cases hstart : Text.trimStart header.run with
  | nil => exact ⟨'{', header.behind, rfl, rfl⟩
  | cons c rest =>
      have hc : Text.isBlank c = false := by
        have hhead := Text.head?_trimStart header.run
        rwa [hstart] at hhead
      exact ⟨c, rest ++ '{' :: header.behind, rfl, by rw [Text.trimEnd_cons hc]; rfl⟩

variable (hlocate : locate? t name = some header)

include hlocate

theorem anyHolds_start :
    Span.anyHolds t.spans header.start = true ↔
      ∃ quote, Quote.after none header.before = some quote ∧
        header.text.head?.bind Quote.ofChar? ≠ some quote := by
  obtain ⟨c, rest, hsource, hc⟩ := header.exists_source
  rw [← source_locate? hlocate, hsource, start, Text.anyHolds_spans, after_lead, Quote.encloses, hc]
  cases Quote.after none header.before with
  | none => simp
  | some quote => simp

theorem anyHolds_brace :
    Span.anyHolds t.spans header.brace = true ↔
      ∃ quote, Quote.after none (header.before ++ header.run) = some quote := by
  rw [← source_locate? hlocate, source, brace, Text.anyHolds_spans, encloses_mark rfl,
    Option.isSome_iff_exists]

/-- A literal that is open in front of a run was open in front of the mark before it. -/
theorem exists_mark {quote : Quote} (hopen : Quote.after none header.before = some quote) :
    ∃ s mark, header.before = s ++ [mark] ∧ endsRun mark = true ∧
      Quote.after none s = some quote := by
  rcases before_of_locate? hlocate with hnil | ⟨s, mark, hbefore, hmark⟩
  · rw [hnil] at hopen
    cases hopen
  · rw [hbefore, after_mark hmark] at hopen
    exact ⟨s, mark, hbefore, hmark, hopen⟩

/-- A header starts inside a literal exactly if the mark in front of its run stands in one that
the header does not begin by closing, and its brace stands inside a literal exactly if one is
open there. So both stand outside of all literals if no literal of the text holds a mark. -/
theorem in_literal_iff :
    (Span.anyHolds t.spans header.start = true ↔
      ∃ s mark quote, header.before = s ++ [mark] ∧ endsRun mark = true ∧
        Quote.after none s = some quote ∧ header.text.head?.bind Quote.ofChar? ≠ some quote) ∧
    (Span.anyHolds t.spans header.brace = true ↔
      ∃ quote, Quote.after none (header.before ++ header.run) = some quote) ∧
    ((∀ g ∈ t.glyphs, g.quoted = true → endsRun g.char = false) →
      Span.anyHolds t.spans header.start = false ∧ Span.anyHolds t.spans header.brace = false) := by
  have hstart : Span.anyHolds t.spans header.start = true ↔
      ∃ s mark quote, header.before = s ++ [mark] ∧ endsRun mark = true ∧
        Quote.after none s = some quote ∧ header.text.head?.bind Quote.ofChar? ≠ some quote := by
    rw [anyHolds_start hlocate]
    constructor
    · rintro ⟨quote, hopen, hhead⟩
      obtain ⟨s, mark, hbefore, hmark, hquote⟩ := exists_mark hlocate hopen
      exact ⟨s, mark, quote, hbefore, hmark, hquote, hhead⟩
    · rintro ⟨s, mark, quote, hbefore, hmark, hquote, hhead⟩
      exact ⟨quote, by rw [hbefore, after_mark hmark, hquote], hhead⟩
  have hbrace := anyHolds_brace hlocate
  refine ⟨hstart, hbrace, fun hclear => ?_⟩
  -- a mark behind an open literal is one of the quoted glyphs
  have hhidden {s u : Text} {mark : Char} {quote : Quote} (hsplit : t = s ++ mark :: u)
      (hmark : endsRun mark = true) (hopen : Quote.after none s = some quote) : False := by
    have hmem := Text.glyph_mem s mark u
    rw [← hsplit, encloses_mark hmark, hopen] at hmem
    have hplain := hclear _ hmem rfl
    rw [hmark] at hplain
    cases hplain
  have hsource := source_locate? hlocate
  rw [← Bool.not_eq_true, ← Bool.not_eq_true, hstart, hbrace]
  constructor
  · rintro ⟨s, mark, quote, hbefore, hmark, hopen, -⟩
    refine hhidden (u := header.run ++ '{' :: header.behind) ?_ hmark hopen
    rw [← hsource, source, hbefore]
    simp
  · rintro ⟨quote, hopen⟩
    exact hhidden (hsource.symm.trans (by rw [source])) rfl hopen

end Header

/-- Inside of a string stand a semicolon and a brace, and the declaration of `A` is found
between them. -/
theorem Header.in_literal_iff_text :
    ∃ header, Header.locate? "String s = \"; class A \x7b\"; class A {}".toList "A".toList =
        some header ∧
      Span.anyHolds (Text.spans "String s = \"; class A \x7b\"; class A {}".toList) header.start =
        true ∧
      Span.anyHolds (Text.spans "String s = \"; class A \x7b\"; class A {}".toList) header.brace =
        true := by
  have hlocate : Header.locate? "String s = \"; class A \x7b\"; class A {}".toList "A".toList =
      some ⟨"String s = \";".toList, " class A ".toList, "\"; class A {}".toList⟩ := by
    decide +kernel
  obtain ⟨hstart, hbrace, -⟩ := Header.in_literal_iff hlocate
  refine ⟨_, hlocate, hstart.mpr ?_, hbrace.mpr ⟨.quotation, by decide +kernel⟩⟩
  exact ⟨"String s = \"".toList, ';', .quotation, by decide +kernel⟩

end Declaration

end ClassDiagram
