import ClassDiagram.Literal.Basic
import ClassDiagram.Proofs.Text.Word

/-!
# Texts without quotes

A text without quotes opens no literal and closes none. All of its characters keep
their roles, and what follows it is marked as if it stood alone. Of any text the parts of its
glyphs are the glyphs of its parts (`glyphsFrom_split`).
-/

namespace ClassDiagram

/-- The character of a quote. -/
def Quote.char : Quote → Char
  | apostrophe => '\''
  | quotation => '"'

theorem Quote.ofChar?_eq_some_iff {c : Char} {quote : Quote} :
    ofChar? c = some quote ↔ c = quote.char := by
  constructor
  · intro h
    rw [ofChar?] at h
    split at h
    · rename_i hc
      cases h
      exact eq_of_beq hc
    split at h
    · rename_i hc
      cases h
      exact eq_of_beq hc
    · cases h
  · rintro rfl
    cases quote <;> rfl

/-- A text without quotes. -/
def Text.Unquoted (t : Text) : Prop := ∀ c ∈ t, Quote.ofChar? c = none

/-- A text of which no character stands inside a literal. -/
def Text.bare (t : Text) : List Glyph := t.map fun c => ⟨c, false⟩

namespace Text

@[simp] theorem bare_nil : bare [] = [] := rfl

@[simp] theorem bare_cons (c : Char) (t : Text) : bare (c :: t) = ⟨c, false⟩ :: bare t := rfl

@[simp] theorem bare_append (s t : Text) : bare (s ++ t) = bare s ++ bare t := List.map_append

@[simp] theorem chars_bare (t : Text) : Glyph.chars (bare t) = t := by
  induction t with
  | nil => rfl
  | cons c t ih => rw [bare_cons, Glyph.chars_cons, ih]

theorem ofChar?_of_ne {c : Char} (hapostrophe : c ≠ '\'') (hquotation : c ≠ '"') :
    Quote.ofChar? c = none := by
  rw [Quote.ofChar?, if_neg (by simpa using hapostrophe), if_neg (by simpa using hquotation)]

theorem ofChar?_of_isWordChar {c : Char} (h : isWordChar c = true) : Quote.ofChar? c = none :=
  ofChar?_of_ne (ne_of_isWordChar h rfl) (ne_of_isWordChar h rfl)

theorem ofChar?_of_isBlank {c : Char} (h : isBlank c = true) : Quote.ofChar? c = none :=
  ofChar?_of_ne (ne_of_isBlank h rfl) (ne_of_isBlank h rfl)

/-- A text has no quotes if these are among the marks that it lacks. -/
theorem unquoted_of_unmarked {marks t : Text} (h : ∀ c ∈ t, c ∉ marks)
    (hmarks : ['\'', '"'] ⊆ marks) : Unquoted t := by
  intro c hc
  obtain ⟨hapostrophe, hrest⟩ := List.cons_subset.mp hmarks
  have hquotation : '"' ∈ marks := hrest (List.mem_singleton_self _)
  exact ofChar?_of_ne (ne_of_mem_of_not_mem hapostrophe (h c hc)).symm
    (ne_of_mem_of_not_mem hquotation (h c hc)).symm

theorem Over.unquoted {marks t : Text} (h : Over marks t)
    (hmarks : marks.all (fun c => decide (Quote.ofChar? c = none)) = true) : Unquoted t :=
  h.forall_mem (forall_mem_of_all hmarks) fun _ hc => ofChar?_of_isWordChar hc

end Text

/-- A mark of the structure stands outside literals, and it is what its role says. -/
theorem Glyph.eq_of_role {g : Glyph} {c : Char} (h : g.role = Role.ofChar c)
    (hc : Role.ofChar c ≠ .plain) : g = ⟨c, false⟩ := by
  obtain ⟨d, quoted⟩ := g
  cases quoted with
  | true => exact absurd h.symm hc
  | false =>
      have hchar : d = c := by
        simp only [role_bare, Role.ofChar] at h hc
        grind
      rw [hchar]

theorem Glyph.char_of_role_openBrace {g : Glyph} (h : g.role = .openBrace) : g.char = '{' := by
  rw [eq_of_role (c := '{') h (by decide)]

theorem plain_of_isWordChar {c : Char} (hc : Text.isWordChar c = true) :
    Role.ofChar c = .plain := by
  have hne (d : Char) (hd : Text.isWordChar d = false) : (c == d) = false :=
    beq_eq_false_iff_ne.mpr (Text.ne_of_isWordChar hc hd)
  rw [Role.ofChar, hne '{' rfl, hne '}' rfl, hne ';' rfl, hne '(' rfl, hne ')' rfl]
  rfl

theorem plain_of_isBlank {c : Char} (hc : Text.isBlank c = true) : Role.ofChar c = .plain := by
  have hne (d : Char) (hd : Text.isBlank d = false) : (c == d) = false :=
    beq_eq_false_iff_ne.mpr (Text.ne_of_isBlank hc hd)
  rw [Role.ofChar, hne '{' rfl, hne '}' rfl, hne ';' rfl, hne '(' rfl, hne ')' rfl]
  rfl

theorem Quote.next_of_ofChar? {c : Char} (hc : Quote.ofChar? c = none) (pending : Option Quote) :
    Quote.next pending c = pending := by
  cases pending with
  | none => exact hc
  | some quote => simp only [Quote.next, hc]

namespace Quote

variable {c : Char} {quote : Quote}

theorem next_open (hc : ofChar? c = some quote) : next none c = some quote := hc

theorem next_close (hc : ofChar? c = some quote) : next (some quote) c = none := by
  simp only [next, hc, if_pos]

/-- Only its own quote closes a literal. -/
theorem next_inside (hc : ofChar? c ≠ some quote) : next (some quote) c = some quote := by
  cases hfound : ofChar? c with
  | none => exact next_of_ofChar? hfound (some quote)
  | some other =>
      have hne : quote ≠ other := by
        rintro rfl
        exact hc hfound
      simp only [next, hfound, if_neg hne]

end Quote

/-- What is open in front of a text without quotes is open behind it. -/
theorem Quote.after_unquoted {s : Text} (hs : s.Unquoted) (pending : Option Quote) :
    Quote.after pending s = pending := by
  induction s with
  | nil => rfl
  | cons c s ih =>
      rw [Quote.after_cons, Quote.next_of_ofChar? (hs c (by simp)),
        ih fun d hd => hs d (List.mem_cons_of_mem _ hd)]

namespace Text

theorem glyphsFrom_unquoted {s : Text} (hs : Unquoted s) : glyphsFrom none s = bare s := by
  induction s with
  | nil => rfl
  | cons c s ih =>
      have hnext : Quote.next none c = none := hs c (by simp)
      rw [glyphsFrom_cons, hnext, ih fun d hd => hs d (List.mem_cons_of_mem _ hd)]
      rfl

theorem glyphs_unquoted_append {s : Text} (hs : Unquoted s) (t : Text) :
    (s ++ t).glyphs = bare s ++ t.glyphs := by
  rw [glyphs, glyphsFrom_append, glyphsFrom_unquoted hs, Quote.after_unquoted hs, glyphs]

theorem glyphs_unquoted {s : Text} (hs : Unquoted s) : s.glyphs = bare s :=
  glyphsFrom_unquoted hs

@[simp] theorem length_glyphsFrom (pending : Option Quote) (t : Text) :
    (glyphsFrom pending t).length = t.length := by
  have hchars := congrArg List.length (chars_glyphsFrom pending t)
  rwa [Glyph.chars, List.length_map] at hchars

/-- A cut of the glyphs is a cut of the text. -/
theorem glyphsFrom_split {pending : Option Quote} {t : Text} {hs rest : List Glyph}
    (h : glyphsFrom pending t = hs ++ rest) :
    t = Glyph.chars hs ++ Glyph.chars rest ∧ glyphsFrom pending (Glyph.chars hs) = hs ∧
      glyphsFrom (Quote.after pending (Glyph.chars hs)) (Glyph.chars rest) = rest := by
  have htext : t = Glyph.chars hs ++ Glyph.chars rest := by
    rw [← Glyph.chars_append, ← h, chars_glyphsFrom]
  refine ⟨htext, ?_⟩
  rw [htext, glyphsFrom_append] at h
  have hlength : (glyphsFrom pending (Glyph.chars hs)).length = hs.length := by
    rw [length_glyphsFrom, Glyph.chars, List.length_map]
  exact List.append_inj h hlength

end Text

end ClassDiagram
