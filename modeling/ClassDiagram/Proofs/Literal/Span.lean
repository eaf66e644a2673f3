import ClassDiagram.Literal.Span
import ClassDiagram.Proofs.Literal.Bare

/-!
# Spans and glyphs

The literals of a text as spans of bytes and the marks on its glyphs tell the same. The
bytes of a character lie in a span exactly when its glyph is quoted (`anyHolds_spans`),
and no offset behind the last of them does (`anyHolds_spans_behind`). The quotes themselves
lie in no span, so an offset at which a literal is still open without lying in a span is
the end of one (`after_of_spans`).
-/

namespace ClassDiagram

namespace Span

/-! ## One character -/

section Step

variable {quote : Quote} {start offset : Nat} {c : Char}

theorem listFrom_plain (hc : Quote.ofChar? c = none) (t : Text) :
    listFrom offset none (c :: t) = listFrom (offset + c.utf8Size) none t := by
  simp only [listFrom, hc]

theorem listFrom_open (hc : Quote.ofChar? c = some quote) (t : Text) :
    listFrom offset none (c :: t) = listFrom (offset + c.utf8Size) (some (quote, offset)) t := by
  simp only [listFrom, hc]

theorem listFrom_close (hc : Quote.ofChar? c = some quote) (t : Text) :
    listFrom offset (some (quote, start)) (c :: t) =
      ⟨quote, start, offset⟩ :: listFrom (offset + c.utf8Size) none t := by
  rw [listFrom, if_pos hc]

theorem listFrom_inside (hc : Quote.ofChar? c ≠ some quote) (t : Text) :
    listFrom offset (some (quote, start)) (c :: t) =
      listFrom (offset + c.utf8Size) (some (quote, start)) t := by
  rw [listFrom, if_neg hc]

end Step

/-! ## Where spans stand -/

/-- Every span starts at or behind the start of the text, apart from the one that is open
there. That one ends in the text, and all others start behind it. -/
theorem listFrom_starts (t : Text) (offset : Nat) :
    (∀ span ∈ listFrom offset none t, offset ≤ span.start) ∧
      ∀ quote start, ∃ stop rest, listFrom offset (some (quote, start)) t =
        ⟨quote, start, stop⟩ :: rest ∧ offset ≤ stop ∧ ∀ span ∈ rest, offset ≤ span.start := by
  induction t generalizing offset with
  | nil => exact ⟨by simp [listFrom], fun quote start => ⟨offset, [], rfl, Nat.le_refl _, by simp⟩⟩
  | cons c t ih =>
      obtain ⟨hnone, hsome⟩ := ih (offset + c.utf8Size)
      refine ⟨fun span hspan => ?_, fun quote start => ?_⟩
      · cases hquote : Quote.ofChar? c with
        | none =>
            rw [listFrom_plain hquote] at hspan
            have := hnone span hspan
            omega
        | some quote =>
            obtain ⟨stop, rest, heq, -, hrest⟩ := hsome quote offset
            rw [listFrom_open hquote, heq] at hspan
            rcases List.mem_cons.mp hspan with rfl | hspan
            · exact Nat.le_refl _
            · have := hrest span hspan
              omega
      · by_cases hclose : Quote.ofChar? c = some quote
        · refine ⟨offset, _, listFrom_close hclose t, Nat.le_refl _, fun span hspan => ?_⟩
          have := hnone span hspan
          omega
        · obtain ⟨stop, rest, heq, hstop, hrest⟩ := hsome quote start
          refine ⟨stop, rest, by rw [listFrom_inside hclose, heq], by omega, fun span hspan => ?_⟩
          have := hrest span hspan
          omega

section Holds

variable {span : Span} {spans : List Span} {offset : Nat}

theorem takeWhile_of_later (h : ∀ span ∈ spans, offset ≤ span.start) :
    (spans.takeWhile fun span => span.start < offset) = [] := by
  cases spans with
  | nil => rfl
  | cons span spans =>
      have hspan := h span (by simp)
      exact List.takeWhile_cons_of_neg (by simpa using hspan)

/-- Spans that start later hold nothing. -/
theorem anyHolds_of_later (h : ∀ span ∈ spans, offset ≤ span.start) :
    anyHolds spans offset = false := by
  rw [anyHolds, takeWhile_of_later h]
  rfl

theorem anyHolds_cons_of_later (hspan : span.start < offset)
    (h : ∀ span ∈ spans, offset ≤ span.start) :
    anyHolds (span :: spans) offset = span.holds offset := by
  rw [anyHolds, List.takeWhile_cons_of_pos (by simpa using hspan), takeWhile_of_later h]
  rfl

/-- Spans that have ended hold nothing. -/
theorem anyHolds_of_ended (h : ∀ span ∈ spans, span.stop ≤ offset) :
    anyHolds spans offset = false := by
  rw [anyHolds, Option.any_eq_false]
  intro span hspan
  have hstop := h span ((List.takeWhile_sublist _).subset (List.mem_of_getLast? hspan))
  simp only [holds, Bool.and_eq_false_iff, decide_eq_false_iff_not]
  omega

/-- A span that has ended holds nothing. -/
theorem anyHolds_cons_of_ended (hspan : span.start < offset) (hstop : span.stop ≤ offset) :
    anyHolds (span :: spans) offset = anyHolds spans offset := by
  rw [anyHolds, anyHolds, List.takeWhile_cons_of_pos (by simpa using hspan)]
  cases hrest : spans.takeWhile fun span => span.start < offset with
  | nil =>
      have hholds : span.holds offset = false := by
        simp only [holds, Bool.and_eq_false_iff, decide_eq_false_iff_not]
        omega
      simpa using hholds
  | cons next rest => rw [List.getLast?_cons_cons]

end Holds

/-! ## What spans hold -/

theorem utf8Size_of_ofChar? {c : Char} {quote : Quote} (h : Quote.ofChar? c = some quote) :
    c.utf8Size = 1 := by
  rw [Quote.ofChar?_eq_some_iff.mp h]
  cases quote <;> rfl

/-- No span ends behind the text. -/
theorem stop_le_of_mem_listFrom {offset : Nat} {pending : Option (Quote × Nat)} {t : Text}
    {span : Span} (h : span ∈ listFrom offset pending t) : span.stop ≤ offset + t.size := by
  induction t generalizing offset pending with
  | nil =>
      cases pending with
      | none => cases h
      | some found =>
          cases List.mem_singleton.mp h
          exact Nat.le_add_right _ _
  | cons c t ih =>
      rw [Text.size_cons, ← Nat.add_assoc]
      cases pending with
      | none =>
          cases hquote : Quote.ofChar? c with
          | none =>
              rw [listFrom_plain hquote] at h
              exact ih h
          | some quote =>
              rw [listFrom_open hquote] at h
              exact ih h
      | some found =>
          obtain ⟨quote, start⟩ := found
          by_cases hclose : Quote.ofChar? c = some quote
          · rw [listFrom_close hclose] at h
            rcases List.mem_cons.mp h with rfl | h
            · dsimp only
              omega
            · exact ih h
          · rw [listFrom_inside hclose] at h
            exact ih h

/-- A byte of a character lies in a span exactly when a literal encloses the character. -/
theorem anyHolds_listFrom {offset k : Nat} {pending : Option (Quote × Nat)}
    (hpending : ∀ found ∈ pending, found.2 < offset) (s : Text) {c : Char} (hk : k < c.utf8Size)
    (t : Text) :
    anyHolds (listFrom offset pending (s ++ c :: t)) (offset + s.size + k) =
      Quote.encloses (Quote.after (pending.map Prod.fst) s) c := by
  induction s generalizing offset pending with
  | nil =>
      -- A quote is a single byte, and a span may start or end there.
      have hquote {quote : Quote} (h : Quote.ofChar? c = some quote) : k = 0 := by
        have := utf8Size_of_ofChar? h
        omega
      rw [List.nil_append, Text.size_nil, Nat.add_zero]
      cases pending with
      | none =>
          refine anyHolds_of_later fun span hspan => ?_
          cases hc : Quote.ofChar? c with
          | none =>
              rw [listFrom_plain hc] at hspan
              have := (listFrom_starts t _).1 span hspan
              omega
          | some quote =>
              have := (listFrom_starts (c :: t) offset).1 span hspan
              have := hquote hc
              omega
      | some found =>
          obtain ⟨quote, start⟩ := found
          have hstart : start < offset := hpending _ rfl
          by_cases hclose : Quote.ofChar? c = some quote
          · have hfirst := hquote hclose
            subst hfirst
            have hlater : ∀ span ∈ listFrom (offset + c.utf8Size) none t, offset ≤ span.start := by
              intro span hspan
              have := (listFrom_starts t _).1 span hspan
              omega
            rw [listFrom_close hclose, Nat.add_zero, anyHolds_cons_of_later hstart hlater]
            simp [holds, Quote.encloses, hclose]
          · obtain ⟨stop, rest, heq, hstop, hrest⟩ :=
              (listFrom_starts t (offset + c.utf8Size)).2 quote start
            have hlater : ∀ span ∈ rest, offset + k ≤ span.start := by
              intro span hspan
              have := hrest span hspan
              omega
            have hinside : start < offset + k ∧ offset + k < stop := by omega
            rw [listFrom_inside hclose, heq, anyHolds_cons_of_later hinside.1 hlater]
            simp [holds, Quote.encloses, hclose, hinside]
  | cons d s ih =>
      have hsize := d.utf8Size_pos
      rw [Text.size_cons, ← Nat.add_assoc, Quote.after_cons, List.cons_append]
      cases pending with
      | none =>
          cases hquote : Quote.ofChar? d with
          | none =>
              rw [listFrom_plain hquote, ih (by simp), Option.map_none,
                Quote.next_of_ofChar? hquote]
          | some quote =>
              rw [listFrom_open hquote, ih (by simpa using hsize), Option.map_some, Option.map_none,
                Quote.next_open hquote]
      | some found =>
          obtain ⟨quote, start⟩ := found
          have hstart : start < offset := hpending _ rfl
          by_cases hclose : Quote.ofChar? d = some quote
          · rw [listFrom_close hclose,
              anyHolds_cons_of_ended (by dsimp only; omega) (by dsimp only; omega), ih (by simp),
              Option.map_none, Option.map_some, Quote.next_close hclose]
          · rw [listFrom_inside hclose, ih (by simpa using by omega), Option.map_some,
              Quote.next_inside hclose]

/-- The quote that closes a literal is the end of a span. -/
theorem exists_stop_listFrom (offset : Nat) {pending : Option (Quote × Nat)} {s : Text} {c : Char}
    {quote : Quote} (hopen : Quote.after (pending.map Prod.fst) s = some quote)
    (hclose : Quote.ofChar? c = some quote) (t : Text) :
    ∃ span ∈ listFrom offset pending (s ++ c :: t), span.stop = offset + s.size := by
  induction s generalizing offset pending with
  | nil =>
      cases pending with
      | none => cases hopen
      | some found =>
          obtain ⟨outer, start⟩ := found
          cases hopen
          refine ⟨⟨outer, start, offset⟩, ?_, rfl⟩
          rw [List.nil_append, listFrom_close hclose]
          exact List.mem_cons_self
  | cons d s ih =>
      rw [Quote.after_cons] at hopen
      rw [Text.size_cons, ← Nat.add_assoc, List.cons_append]
      cases pending with
      | none =>
          cases hquote : Quote.ofChar? d with
          | none =>
              rw [Option.map_none, Quote.next_of_ofChar? hquote] at hopen
              rw [listFrom_plain hquote]
              exact ih _ hopen
          | some found =>
              rw [Option.map_none, Quote.next_open hquote] at hopen
              rw [listFrom_open hquote]
              exact ih _ hopen
      | some found =>
          obtain ⟨outer, start⟩ := found
          by_cases hfound : Quote.ofChar? d = some outer
          · rw [Option.map_some, Quote.next_close hfound, ← Option.map_none] at hopen
            obtain ⟨span, hspan, hstop⟩ := ih (offset + d.utf8Size) hopen
            rw [listFrom_close hfound]
            exact ⟨span, List.mem_cons_of_mem _ hspan, hstop⟩
          · rw [Option.map_some, Quote.next_inside hfound] at hopen
            rw [listFrom_inside hfound]
            exact ih _ hopen

end Span

namespace Text

/-- A byte of a character lies in a span of the text exactly when its glyph is quoted. -/
theorem anyHolds_spans_byte (s : Text) {c : Char} {k : Nat} (hk : k < c.utf8Size) (t : Text) :
    Span.anyHolds (spans (s ++ c :: t)) (s.size + k) = Quote.encloses (Quote.after none s) c := by
  have hholds : Span.anyHolds (Span.listFrom 0 none (s ++ c :: t)) (0 + s.size + k) =
      Quote.encloses (Quote.after none s) c := Span.anyHolds_listFrom (by simp) s hk t
  rwa [Nat.zero_add] at hholds

theorem anyHolds_spans (s : Text) (c : Char) (t : Text) :
    Span.anyHolds (spans (s ++ c :: t)) s.size = Quote.encloses (Quote.after none s) c :=
  anyHolds_spans_byte s c.utf8Size_pos t

/-- No offset behind the text lies in a span. -/
theorem anyHolds_spans_behind {t : Text} {offset : Nat} (h : t.size ≤ offset) :
    Span.anyHolds t.spans offset = false := by
  refine Span.anyHolds_of_ended fun span hspan => ?_
  have hstop := Span.stop_le_of_mem_listFrom hspan
  omega

/-- No literal is open at a mark that lies in no span. -/
theorem after_of_not_holds {s t : Text} {c : Char} (hc : Quote.ofChar? c = none)
    (h : Span.anyHolds (spans (s ++ c :: t)) s.size = false) : Quote.after none s = none := by
  rw [anyHolds_spans] at h
  cases hopen : Quote.after none s with
  | none => rfl
  | some quote => simp [Quote.encloses, hopen, hc] at h

/-- At an offset that lies in no span and ends none, no literal is open. -/
theorem after_of_spans {s t : Text} {c : Char}
    (hholds : Span.anyHolds (spans (s ++ c :: t)) s.size = false)
    (hstop : ∀ span ∈ spans (s ++ c :: t), span.stop ≠ s.size) : Quote.after none s = none := by
  rw [anyHolds_spans] at hholds
  cases hopen : Quote.after none s with
  | none => rfl
  | some quote =>
      have hclose : Quote.ofChar? c = some quote := by simpa [Quote.encloses, hopen] using hholds
      obtain ⟨span, hspan, hend⟩ : ∃ span ∈ Span.listFrom 0 none (s ++ c :: t),
          span.stop = 0 + s.size := Span.exists_stop_listFrom 0 (by simpa using hopen) hclose t
      rw [Nat.zero_add] at hend
      exact absurd hend (hstop span hspan)

end Text

end ClassDiagram
