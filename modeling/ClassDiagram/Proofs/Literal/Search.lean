import ClassDiagram.Literal.Search
import ClassDiagram.Proofs.Literal.Span
import ClassDiagram.Proofs.Text.Byte
import Mathlib.Order.Bounds.Basic

/-!
# The first occurrence outside literals

A hit is a place at which the needle begins and no literal encloses its first character. The search
passes over every place that is no hit, so what it finds is the first one, however the occurrences
overlap (`Text.findOutside_isLeast`). Only behind an occurrence in a literal that starts with a
character of several bytes it gives up, which a needle that starts with an ASCII character never
brings about.
-/

namespace ClassDiagram

namespace Glyph

variable {needle : Text} {gs rest : List Glyph} {g : Glyph}

theorem dropNeedle?_eq_some_iff :
    dropNeedle? needle gs = some rest ↔ ∃ hit, gs = hit ++ rest ∧ chars hit = needle := by
  induction needle generalizing gs with
  | nil => simp [dropNeedle?, chars]
  | cons c needle ih =>
      cases gs with
      | nil => simp [dropNeedle?, chars]
      | cons g gs =>
          rw [dropNeedle?]
          split
          · rename_i hc
            rw [ih]
            constructor
            · rintro ⟨hit, rfl, rfl⟩
              exact ⟨g :: hit, rfl, by rw [chars_cons, hc]⟩
            · rintro ⟨hit, hgs, hhit⟩
              cases hit with
              | nil => cases hhit
              | cons first hit =>
                  rw [List.cons_append, List.cons.injEq] at hgs
                  exact ⟨hit, hgs.2, (List.cons.inj hhit).2⟩
          · rename_i hc
            simp only [reduceCtorEq, false_iff]
            rintro ⟨hit, hgs, hhit⟩
            cases hit with
            | nil => cases hhit
            | cons first hit =>
                rw [List.cons_append, List.cons.injEq] at hgs
                rw [chars_cons, List.cons.injEq, ← hgs.1] at hhit
                exact hc hhit.1.symm

theorem chars_of_dropNeedle? (h : dropNeedle? needle gs = some rest) :
    chars gs = needle ++ chars rest := by
  obtain ⟨hit, rfl, rfl⟩ := dropNeedle?_eq_some_iff.mp h
  exact chars_append hit rest

theorem exists_dropNeedle?_iff :
    (∃ rest, dropNeedle? needle gs = some rest) ↔ needle <+: chars gs := by
  constructor
  · rintro ⟨rest, h⟩
    exact ⟨chars rest, (chars_of_dropNeedle? h).symm⟩
  · rintro ⟨behind, h⟩
    have hlength : (gs.take needle.length).map char = needle := by
      rw [List.map_take, ← chars, ← h, List.take_left]
    exact ⟨gs.drop needle.length, dropNeedle?_eq_some_iff.mpr
      ⟨gs.take needle.length, (List.take_append_drop _ _).symm, hlength⟩⟩

/-! ## Hits -/

/-- The needle begins here, and no literal encloses its first character. -/
structure Hit (needle : Text) (gs : List Glyph) : Prop where
  begins : needle <+: chars gs
  free : ∀ g ∈ gs.head?, g.quoted = false

theorem cutOutside?_of_hit (h : Hit needle gs) :
    ∃ after, cutOutside? needle gs = some ([], after) := by
  obtain ⟨after, hafter⟩ := exists_dropNeedle?_iff.mpr h.begins
  cases gs with
  | nil =>
      cases needle with
      | nil => exact ⟨[], rfl⟩
      | cons c needle => cases hafter
  | cons g gs =>
      have hfree : g.quoted = false := h.free g rfl
      exact ⟨after, by simp [cutOutside?, hafter, hfree]⟩

/-- A place that is no hit is passed over, unless the needle begins there in a literal and with a
character of several bytes. -/
theorem cutOutside?_of_not_hit (h : ¬Hit needle (g :: gs)) :
    cutOutside? needle (g :: gs) =
        (cutOutside? needle gs).map (fun (before, after) => (g :: before, after)) ∨
      cutOutside? needle (g :: gs) = none ∧ needle <+: chars (g :: gs) ∧ g.char.utf8Size ≠ 1 := by
  cases hdrop : dropNeedle? needle (g :: gs) with
  | none =>
      left
      simp only [cutOutside?, hdrop]
  | some after =>
      have hbegins : needle <+: chars (g :: gs) := exists_dropNeedle?_iff.mp ⟨after, hdrop⟩
      have hquoted : g.quoted = true := by
        rw [← Bool.not_eq_false]
        intro hfree
        exact h ⟨hbegins, by simpa using hfree⟩
      by_cases hsize : g.char.utf8Size = 1
      · left
        simp [cutOutside?, hdrop, hquoted, hsize]
      · right
        exact ⟨by simp [cutOutside?, hdrop, hquoted, hsize], hbegins, hsize⟩

/-- What is found is a hit, and in front of it there is none. -/
theorem hit_of_cutOutside? {before after : List Glyph}
    (h : cutOutside? needle gs = some (before, after)) :
    ∃ rest, gs = before ++ rest ∧ Hit needle rest ∧
      ∀ front back, gs = front ++ back → front.length < before.length → ¬Hit needle back := by
  induction gs generalizing before with
  | nil =>
      cases needle with
      | nil =>
          cases h
          exact ⟨[], rfl, ⟨List.nil_prefix, by simp⟩, by simp⟩
      | cons c needle => cases h
  | cons g gs ih =>
      by_cases hhit : Hit needle (g :: gs)
      · obtain ⟨after', hafter⟩ := cutOutside?_of_hit hhit
        rw [hafter] at h
        cases h
        exact ⟨g :: gs, rfl, hhit, by simp⟩
      · rcases cutOutside?_of_not_hit hhit with hskip | ⟨hnone, -, -⟩
        · rw [hskip, Option.map_eq_some_iff] at h
          obtain ⟨⟨before', after'⟩, hcut, hpair⟩ := h
          cases hpair
          obtain ⟨rest, rfl, hrest, hfirst⟩ := ih hcut
          refine ⟨rest, rfl, hrest, fun front back hgs hlength => ?_⟩
          cases front with
          | nil =>
              cases hgs
              exact hhit
          | cons first front =>
              exact hfirst front back (List.cons.inj hgs).2 (Nat.lt_of_succ_lt_succ hlength)
        · rw [hnone] at h
          cases h

/-- What is found stands between the glyphs before it and those after it. -/
theorem chars_of_cutOutside? {before after : List Glyph}
    (h : cutOutside? needle gs = some (before, after)) :
    chars gs = chars before ++ (needle ++ chars after) := by
  induction gs generalizing before with
  | nil =>
      rw [cutOutside?] at h
      split at h
      · rename_i hempty
        cases h
        rw [List.isEmpty_iff.mp hempty]
        rfl
      · cases h
  | cons g gs ih =>
      have hlater
          (hskip : (cutOutside? needle gs).map (fun (before, after) => (g :: before, after)) =
            some (before, after)) :
          chars (g :: gs) = chars before ++ (needle ++ chars after) := by
        obtain ⟨⟨found, rest⟩, hcut, hpair⟩ := Option.map_eq_some_iff.mp hskip
        cases hpair
        exact congrArg (g.char :: ·) (ih hcut)
      rw [cutOutside?] at h
      split at h
      · exact hlater h
      · rename_i rest hdrop
        split at h
        · cases h
          exact chars_of_dropNeedle? hdrop
        · split at h
          · exact hlater h
          · cases h

/-- If nothing is found, there is no hit, as long as the first character of the needle is a single
byte. -/
theorem not_hit_of_cutOutside?_eq_none {c : Char} {tail : Text} (hneedle : needle = c :: tail)
    (hsize : c.utf8Size = 1) (h : cutOutside? needle gs = none) {front back : List Glyph}
    (hgs : gs = front ++ back) : ¬Hit needle back := by
  induction gs generalizing front with
  | nil =>
      rw [(List.nil_eq_append_iff.mp hgs).2]
      intro hhit
      rw [hneedle] at hhit
      exact absurd hhit.begins (by simp [chars])
  | cons g gs ih =>
      have hhit : ¬Hit needle (g :: gs) := by
        intro hhit
        obtain ⟨after, hafter⟩ := cutOutside?_of_hit hhit
        rw [hafter] at h
        cases h
      rcases cutOutside?_of_not_hit hhit with hskip | ⟨-, hbegins, hlarge⟩
      · rw [hskip, Option.map_eq_none_iff] at h
        cases front with
        | nil =>
            cases hgs
            exact hhit
        | cons first front => exact ih h (List.cons.inj hgs).2
      · rw [hneedle, chars_cons, List.cons_prefix_cons] at hbegins
        rw [hbegins.1] at hsize
        exact absurd hsize hlarge

/-- Nothing is found without one of its characters. -/
theorem cutOutside?_of_not_mem {c : Char} (hneedle : c ∈ needle) (h : c ∉ chars gs) :
    cutOutside? needle gs = none := by
  rw [Option.eq_none_iff_forall_ne_some]
  rintro ⟨before, after⟩ hcut
  obtain ⟨rest, rfl, hrest, -⟩ := hit_of_cutOutside? hcut
  rw [chars_append] at h
  exact h (List.mem_append_right _ (hrest.begins.subset hneedle))

end Glyph

namespace Text

/-- The needle stands in the text at a byte offset. -/
def OccursAt (needle t : Text) (offset : Nat) : Prop :=
  ∃ before behind, t = before ++ (needle ++ behind) ∧ before.size = offset

/-- The offsets from `start` on at which the needle stands in the text and which lie in none of its
literals. -/
def occurrencesOutside (t needle : Text) (start : Nat) : Set Nat :=
  {offset | start ≤ offset ∧ OccursAt needle t offset ∧ Span.anyHolds t.spans offset = false}

variable {t needle passed rest : Text}

theorem occursAt_size_iff (s u : Text) : OccursAt needle (s ++ u) s.size ↔ needle <+: u := by
  constructor
  · rintro ⟨before, behind, htext, hsize⟩
    obtain ⟨rfl, rfl⟩ := eq_of_size htext hsize.symm
    exact List.prefix_append needle behind
  · rintro ⟨behind, rfl⟩
    exact ⟨s, behind, rfl, rfl⟩

/-- A hit is an occurrence that lies in no span. -/
theorem hit_iff (s u : Text) :
    Glyph.Hit needle (glyphsFrom (Quote.after none s) u) ↔
      OccursAt needle (s ++ u) s.size ∧ Span.anyHolds (spans (s ++ u)) s.size = false := by
  have hfree : (∀ g ∈ (glyphsFrom (Quote.after none s) u).head?, g.quoted = false) ↔
      Span.anyHolds (spans (s ++ u)) s.size = false := by
    cases u with
    | nil =>
        have hend : Span.anyHolds (spans (s ++ [])) s.size = false :=
          anyHolds_spans_behind (by rw [List.append_nil])
        exact ⟨fun _ => hend, fun _ g hg => nomatch hg⟩
    | cons c u =>
        rw [anyHolds_spans, glyphsFrom_cons, List.head?_cons]
        simp
  rw [occursAt_size_iff, ← hfree]
  exact ⟨fun h => ⟨by simpa using h.begins, h.free⟩, fun h => ⟨by simpa using h.1, h.2⟩⟩

/-- From a place on at which the text may be cut, the search goes over the glyphs behind it. -/
theorem findOutside_size (needle passed rest : Text) :
    findOutside (passed ++ rest) needle passed.size =
      (Glyph.cutOutside? needle (glyphsFrom (Quote.after none passed) rest)).map fun (before, _) =>
        passed.size + size (Glyph.chars before) := by
  rw [findOutside, splitAtByte?_size]
  dsimp only [Option.bind_eq_bind, Option.bind_some]
  rw [glyphs, glyphsFrom_append, List.drop_left' (length_glyphsFrom none passed),
    Option.map_eq_bind]
  rfl

/-- The occurrences outside literals, from a place on, are the hits among the glyphs behind it. -/
theorem mem_occurrencesOutside_iff (needle passed rest : Text) {offset : Nat} :
    offset ∈ occurrencesOutside (passed ++ rest) needle passed.size ↔
      ∃ front back, glyphsFrom (Quote.after none passed) rest = front ++ back ∧
        offset = passed.size + size (Glyph.chars front) ∧ Glyph.Hit needle back := by
  constructor
  · rintro ⟨hstart, hoccurs, hfree⟩
    obtain ⟨before, behind, htext, rfl⟩ := hoccurs
    obtain ⟨between, rfl, rfl⟩ := exists_of_size_le htext hstart
    refine ⟨glyphsFrom (Quote.after none passed) between,
      glyphsFrom (Quote.after none (passed ++ between)) (needle ++ behind), ?_, ?_, ?_⟩
    · rw [glyphsFrom_append, Quote.after_append]
    · rw [chars_glyphsFrom, size_append]
    · rw [hit_iff, occursAt_size_iff, ← htext]
      exact ⟨List.prefix_append needle behind, hfree⟩
  · rintro ⟨front, back, hglyphs, rfl, hhit⟩
    obtain ⟨rfl, -, hback⟩ := glyphsFrom_split hglyphs
    rw [← hback, ← Quote.after_append, hit_iff, size_append, List.append_assoc] at hhit
    exact ⟨Nat.le_add_right _ _, hhit⟩

/-- The search finds the first occurrence of the needle outside literals, from an offset on. If it
finds none, there is none, as long as it starts between two characters or at an end of the text and
the needle starts with an ASCII character. -/
theorem findOutside_isLeast (t needle : Text) (start : Nat) :
    (∀ offset, t.findOutside needle start = some offset →
        IsLeast (occurrencesOutside t needle start) offset) ∧
      ((∃ passed rest, t = passed ++ rest ∧ passed.size = start) →
        (∃ c tail, needle = c :: tail ∧ c.toNat < 128) →
        t.findOutside needle start = none → occurrencesOutside t needle start = ∅) := by
  constructor
  · intro offset h
    cases hcut : splitAtByte? start t with
    | none =>
        rw [findOutside, hcut] at h
        cases h
    | some parts =>
        obtain ⟨passed, rest⟩ := parts
        obtain ⟨rfl, rfl⟩ := splitAtByte?_eq_some_iff.mp hcut
        rw [findOutside_size, Option.map_eq_some_iff] at h
        obtain ⟨⟨before, after⟩, hfound, rfl⟩ := h
        obtain ⟨behind, hglyphs, hhit, hfirst⟩ := Glyph.hit_of_cutOutside? hfound
        refine ⟨(mem_occurrencesOutside_iff needle passed rest).mpr
          ⟨before, behind, hglyphs, rfl, hhit⟩, ?_⟩
        intro other hother
        obtain ⟨front, back, hsplit, rfl, hback⟩ :=
          (mem_occurrencesOutside_iff needle passed rest).mp hother
        have hlength : before.length ≤ front.length :=
          Nat.le_of_not_lt fun hlt => hfirst front back hsplit hlt hback
        obtain ⟨between, rfl⟩ := List.prefix_of_prefix_length_le
          (hglyphs ▸ List.prefix_append before behind) (hsplit ▸ List.prefix_append front back)
          hlength
        show passed.size + size (Glyph.chars before) ≤ _
        rw [Glyph.chars_append, size_append]
        omega
  · rintro ⟨passed, rest, rfl, rfl⟩ ⟨c, tail, hneedle, hascii⟩ h
    rw [findOutside_size, Option.map_eq_none_iff] at h
    refine Set.eq_empty_of_forall_notMem fun offset hoffset => ?_
    obtain ⟨front, back, hglyphs, -, hhit⟩ :=
      (mem_occurrencesOutside_iff needle passed rest).mp hoffset
    exact Glyph.not_hit_of_cutOutside?_eq_none hneedle (utf8Size_eq_one hascii) h hglyphs hhit

/-- Behind the first equals sign the next one is in a literal, and there are no more than two
others. -/
theorem findOutside_isLeast_assignment :
    IsLeast (occurrencesOutside "a = \"x = y\" = z".toList " = ".toList 2) 11 ∧
      occurrencesOutside "a = \"x = y\" = z".toList " = ".toList 12 = ∅ :=
  ⟨(findOutside_isLeast _ _ 2).1 11 (by decide),
    (findOutside_isLeast _ _ 12).2 ⟨"a = \"x = y\" ".toList, "= z".toList, rfl, rfl⟩
      ⟨' ', "= ".toList, rfl, by decide⟩ (by decide)⟩

end Text

end ClassDiagram
