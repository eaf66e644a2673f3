import ClassDiagram.Proofs.Declaration.Nested

/-!
# Which blocks of a body are declarations

A block directly inside a body is taken out of the member text when a keyword of a type is one
of the words in front of its brace. Braces and semicolons are judged by the literals of the
text, but words are not: a keyword inside a literal counts as much as one outside
(`Body.diverted_iff`). So the prose in an annotation can make a declaration out of a method.
-/

namespace ClassDiagram

/-! ## Words among glyphs -/

/-- A word of a text stands between blanks or the ends of the text. -/
theorem Text.mem_words_of_between {front word behind : Text} (hsolid : Solid word)
    (hne : word ≠ []) (hfront : front.getLast?.all isBlank = true)
    (hbehind : behind.head?.all isBlank = true) : word ∈ words (front ++ (word ++ behind)) := by
  rcases front.eq_nil_or_concat with rfl | ⟨u, c, rfl⟩
  · rw [List.nil_append, words_solid_append hsolid hne hbehind]
    exact List.mem_cons_self
  · rw [List.concat_eq_append] at hfront ⊢
    have hc : isBlank c = true := by simpa using hfront
    rw [List.append_assoc, List.singleton_append, words_append_blank hc,
      words_solid_append hsolid hne hbehind]
    exact List.mem_append_right _ List.mem_cons_self

/-- Inside a text without quotes either all characters are quoted or none is. -/
theorem Text.quoted_of_unquoted {t : Text} (ht : t.Unquoted) (pending : Option Quote) :
    ∀ g ∈ glyphsFrom pending t, g.quoted = pending.isSome := by
  induction t with
  | nil => exact fun g hg => absurd hg List.not_mem_nil
  | cons c t ih =>
      obtain ⟨hc, ht⟩ := List.forall_mem_cons.mp ht
      rw [glyphsFrom_cons, Quote.next_of_ofChar? hc, List.forall_mem_cons]
      refine ⟨?_, ih ht⟩
      rw [Quote.encloses, hc]
      cases pending <;> rfl

namespace Declaration

/-- A keyword of a type is one of the words that glyphs spell, inside a literal (`quoted`) or
outside of all. -/
def KeywordAmong (quoted : Bool) (gs : List Glyph) : Prop :=
  ∃ front word behind, gs = front ++ (word ++ behind) ∧ Glyph.chars word ∈ typeKeywords ∧
    (∀ g ∈ word, g.quoted = quoted) ∧
    (Glyph.chars front).getLast?.all Text.isBlank = true ∧
    (Glyph.chars behind).head?.all Text.isBlank = true

/-- The words in front of a brace are read without regard to literals. -/
theorem declaresType_iff_keywordAmong (pending : Option Quote) (t : Text) :
    declaresType t = true ↔
      KeywordAmong false (Text.glyphsFrom pending t) ∨
        KeywordAmong true (Text.glyphsFrom pending t) := by
  have hany : declaresType t = true ↔ ∃ word ∈ Text.words t, word ∈ typeKeywords := by
    rw [declaresType, List.any_eq_true]
    simp only [List.contains_iff_mem]
  rw [hany]
  constructor
  · rintro ⟨word, hword, hkeyword⟩
    obtain ⟨front, rest, hwords⟩ := List.append_of_mem hword
    obtain ⟨s, behind, rfl, hs, -, -, hbehind, -⟩ := Text.exists_of_words hwords
    have hunquoted : word.Unquoted := fun c hc =>
      Text.ofChar?_of_isWordChar ((isWord_of_typeKeyword hkeyword).2 c hc)
    have hamong : KeywordAmong (Quote.after pending s).isSome
        (Text.glyphsFrom pending (s ++ (word ++ behind))) := by
      refine ⟨Text.glyphsFrom pending s, Text.glyphsFrom (Quote.after pending s) word,
        Text.glyphsFrom (Quote.after pending (s ++ word)) behind, ?_, ?_,
        Text.quoted_of_unquoted hunquoted _, ?_, ?_⟩
      · rw [Text.glyphsFrom_append, Text.glyphsFrom_append, Quote.after_append]
      · rwa [Text.chars_glyphsFrom]
      · rw [Text.chars_glyphsFrom]
        rcases hs with rfl | ⟨u, c, rfl, hc⟩
        · rfl
        · simpa using hc
      · rwa [Text.chars_glyphsFrom]
    cases hopen : (Quote.after pending s).isSome with
    | false => exact .inl (hopen ▸ hamong)
    | true => exact .inr (hopen ▸ hamong)
  · intro h
    obtain ⟨quoted, front, word, behind, hglyphs, hkeyword, -, hfront, hbehind⟩ :
        ∃ quoted, KeywordAmong quoted (Text.glyphsFrom pending t) :=
      h.elim (fun h => ⟨_, h⟩) fun h => ⟨_, h⟩
    have htext : t = Glyph.chars front ++ (Glyph.chars word ++ Glyph.chars behind) := by
      rw [← Glyph.chars_append, ← Glyph.chars_append, ← hglyphs, Text.chars_glyphsFrom]
    have hword := isWord_of_typeKeyword hkeyword
    exact ⟨_, htext ▸ Text.mem_words_of_between hword.solid hword.ne_nil hfront hbehind, hkeyword⟩

/-! ## Blocks of a body -/

/-- A block of a body, by the text in front of it, the text in front of its brace, and the text
between its braces. -/
structure Body.Block where
  before : Text
  head : Text
  inner : Text

/-- The text of a block, from its first character to its closing brace. -/
def Body.Block.text (b : Body.Block) : Text := b.head ++ '{' :: (b.inner ++ ['}'])

/-- A block stands directly inside a body: in front of it all braces are closed and a
statement or a block ends, and its own braces belong together and are no part of a literal. -/
structure Body.Block.StandsIn (b : Body.Block) (body : Text) : Prop where
  source : ∃ behind, body = b.before ++ (b.text ++ behind)
  depth : Glyph.braces.depth? 0 b.before.glyphs = some 0
  boundary : ∀ mark ∈ b.before.glyphs.getLast?, mark.role = .semicolon ∨ mark.role = .closeBrace
  passive : ∀ g ∈ b.head.glyphs, g.Passive
  opening : Quote.after none b.head = none
  inside : Glyph.braces.depth? 0 b.inner.glyphs = some 0
  closing : Quote.after none b.inner = none

/-- Glyphs that close all of their braces and end in a mark begin with a complete piece. -/
theorem Body.exists_complete_of_depth? {gs : List Glyph} (hne : gs ≠ [])
    (hdepth : Glyph.braces.depth? 0 gs = some 0) (hlast : ∀ mark ∈ gs.getLast?, ¬mark.Passive) :
    ∃ hs piece rest, gs = hs ++ rest ∧ Complete hs piece := by
  rcases Glyph.passive_or_split gs with hall | ⟨head, mark, rest, rfl, hhead, hmark⟩
  · exact absurd (hall _ (List.getLast_mem hne)) (hlast _ (List.getLast?_eq_some_getLast hne))
  · rw [Brackets.depth?_append, Glyph.braces_passive hhead, Option.bind_some] at hdepth
    rcases Glyph.role_of_not_passive hmark with hopen | hclose | hsemicolon
    · rw [Glyph.braces_open hopen] at hdepth
      obtain ⟨inner, closing, rest, rfl, -, hclosing, hinner⟩ :=
        Brackets.exists_of_depth?_eq_zero hdepth
      exact ⟨_, _, rest, by simp, .block hhead hopen hinner (eq_of_beq hclosing)⟩
    · rw [Glyph.braces_close_zero hclose] at hdepth
      cases hdepth
    · exact ⟨_, _, rest, by simp, .statement hhead hsemicolon⟩

/-- A text that closes all of its braces and ends in a mark falls into complete pieces. -/
theorem exists_pieces_of_depth? {s : Text} (hdepth : Glyph.braces.depth? 0 s.glyphs = some 0)
    (hlast : ∀ mark ∈ s.glyphs.getLast?, ¬mark.Passive) : ∃ pieces, Pieces s pieces := by
  induction hlength : s.length using Nat.strongRecOn generalizing s with
  | ind n ih =>
      rcases s.eq_nil_or_concat with rfl | ⟨u, c, hconcat⟩
      · exact ⟨[], .nil⟩
      have hne : s.glyphs ≠ [] := by
        intro hnil
        have hchars := Text.chars_glyphs s
        rw [hnil, hconcat] at hchars
        simp at hchars
      obtain ⟨hs, piece, rest, hglyphs, hcomplete⟩ :=
        Body.exists_complete_of_depth? hne hdepth hlast
      obtain ⟨v, w, rfl, hv⟩ := hcomplete.wholePiece hglyphs
      rw [Text.glyphs_append hv.unquoted] at hdepth hlast
      rw [Brackets.depth?_append, hv.complete.braces, Option.bind_some] at hdepth
      have hlt : w.length < n := by
        have hpos : v ≠ [] := by
          rintro rfl
          obtain ⟨front, mark, hmark, -⟩ := hv.complete.exists_concat
          simp [Text.glyphs] at hmark
        have := List.length_pos_iff.mpr hpos
        rw [List.length_append] at hlength
        omega
      obtain ⟨pieces, hpieces⟩ := ih w.length hlt hdepth
        (fun mark hmark => hlast mark (by rw [List.getLast?_append, hmark]; rfl)) rfl
      exact ⟨piece :: pieces, .cons hv hpieces⟩

theorem Body.Complete.role_getLast? {hs : List Glyph} {piece : Piece} (h : Complete hs piece) :
    ∃ mark ∈ hs.getLast?, mark.role = .semicolon ∨ mark.role = .closeBrace := by
  cases h with
  | @statement head mark hhead hmark => exact ⟨mark, by simp, .inl hmark⟩
  | @block head inner opening closing hhead hopening hinner hclosing =>
      rw [← List.cons_append, ← List.append_assoc]
      exact ⟨closing, List.getLast?_concat, .inr hclosing⟩

/-- Behind complete pieces all braces are closed and a statement or a block has ended. -/
theorem Pieces.boundary {s : Text} {pieces : List Piece} (h : Pieces s pieces) :
    Glyph.braces.depth? 0 s.glyphs = some 0 ∧
      ∀ mark ∈ s.glyphs.getLast?, mark.role = .semicolon ∨ mark.role = .closeBrace := by
  induction h with
  | nil => exact ⟨rfl, fun mark hmark => by cases hmark⟩
  | @cons s t piece pieces hs _ ih =>
      obtain ⟨hdepth, hlast⟩ := ih
      rw [Text.glyphs_append hs.unquoted, Brackets.depth?_append, hs.complete.braces]
      refine ⟨hdepth, fun mark hmark => ?_⟩
      rw [List.getLast?_append] at hmark
      cases ht : t.glyphs.getLast? with
      | some last =>
          rw [ht] at hmark hlast
          exact hlast mark hmark
      | none =>
          rw [ht, Option.none_or] at hmark
          obtain ⟨last, hmem, hrole⟩ := hs.complete.role_getLast?
          cases Option.mem_unique hmark hmem
          exact hrole

namespace Body

theorem Block.StandsIn.glyphs_text {b : Block} {body : Text} (h : b.StandsIn body) :
    b.text.glyphs = b.head.glyphs ++ ⟨'{', false⟩ :: (b.inner.glyphs ++ [⟨'}', false⟩]) := by
  have hclosing : Text.glyphs (b.inner ++ ['}']) = b.inner.glyphs ++ [⟨'}', false⟩] :=
    Text.glyphs_append h.closing ['}']
  rw [Block.text, Text.glyphs_append h.opening, ← hclosing]
  rfl

/-- A block is a complete piece, a declaration if its head declares a type. -/
theorem Block.StandsIn.wholePiece {b : Block} {body : Text} (h : b.StandsIn body) :
    WholePiece b.text (.block (declaresType b.head) b.text) := by
  constructor
  · have hblock :
        Complete (b.head.glyphs ++ ⟨'{', false⟩ :: (b.inner.glyphs ++ [⟨'}', false⟩])) _ :=
      .block h.passive rfl h.inside rfl
    rwa [← h.glyphs_text, Text.chars_glyphs, Text.chars_glyphs] at hblock
  · rw [Block.text, Quote.after_append, h.opening, Quote.after_cons]
    exact (Quote.after_append none b.inner ['}']).trans (by rw [h.closing]; rfl)

/-- Every nested declaration behind complete pieces is a block. -/
theorem exists_block {s d : Text} {pieces : List Piece} (hs : Pieces s pieces)
    (hd : WholePiece d (.nested d)) (rest : Text) :
    ∃ b : Block, b.StandsIn (s ++ (d ++ rest)) ∧ b.text = d ∧ declaresType b.head = true := by
  obtain ⟨⟨head, opening, inner, closing, hglyphs, hhead, hopening, hinner, hclosing, hdeclares⟩,
    -⟩ := wholePiece_nested_iff.mp hd
  obtain ⟨htext, hheadGlyphs, hopen, hrest⟩ :=
    Text.glyphs_split_at hglyphs (by rw [hopening]; decide)
  obtain ⟨hinnerText, hinnerGlyphs, hclose, -⟩ :=
    Text.glyphs_split_at hrest (by rw [hclosing]; decide)
  obtain ⟨hdepth, hboundary⟩ := hs.boundary
  have hd' : d = Glyph.chars head ++ '{' :: (Glyph.chars inner ++ ['}']) := by
    rw [htext, hinnerText, Glyph.char_of_role_openBrace hopening, eq_of_role_closeBrace hclosing]
    rfl
  refine ⟨⟨s, Glyph.chars head, Glyph.chars inner⟩, ?_, hd'.symm, hdeclares⟩
  exact ⟨⟨rest, by rw [hd']; rfl⟩, hdepth, hboundary, by rwa [hheadGlyphs], hopen,
    by rwa [hinnerGlyphs], hclose⟩

/-- A block is one of the pieces of its body, behind those of the text in front of it. -/
theorem Block.StandsIn.exists_pieces {b : Block} {body : Text} (h : b.StandsIn body) :
    ∃ pieces more, (read 0 false [] body.glyphs).pieces =
      pieces ++ .block (declaresType b.head) b.text :: more ∧
        pieces.flatMap Piece.text = b.before := by
  obtain ⟨behind, hsource⟩ := h.source
  obtain ⟨pieces, hpieces⟩ := exists_pieces_of_depth? h.depth fun mark hmark hpassive =>
    (h.boundary mark hmark).elim hpassive.2.2 hpassive.2.1
  refine ⟨pieces, (read 0 false [] behind.glyphs).pieces, ?_, hpieces.text_eq⟩
  rw [hsource, hpieces.read_append, h.wholePiece.pieces.read_append]
  rfl

/-- A body has no nested declarations but its blocks. -/
theorem exists_block_of_mem_nested {body d : Text} (h : d ∈ (read 0 false [] body.glyphs).nested) :
    ∃ b : Block, b.StandsIn body ∧ b.text = d ∧ declaresType b.head = true := by
  obtain ⟨s, u, pieces, rfl, hs, hend⟩ := Declaration.exists_pieces body
  obtain ⟨last, hlast⟩ : ∃ last, (read 0 false [] u.glyphs).pieces = [.member last] := by
    rcases hend with ⟨head, rest, -, hu⟩ | ⟨text, hu⟩
    · exact ⟨head, by rw [hu]⟩
    · exact ⟨text, by rw [hu]⟩
  rw [hs.read_append, nested, hlast, List.filterMap_append] at h
  obtain ⟨piece, hpiece, hnested⟩ : ∃ piece ∈ pieces, piece.nested? = some d := by
    simpa [Piece.nested?] using h
  cases piece with
  | member text => cases hnested
  | nested text =>
      cases hnested
      obtain ⟨before, after, rfl⟩ := List.append_of_mem hpiece
      obtain ⟨v, w, rfl, hv, hw⟩ := hs.of_append
      cases hw with
      | @cons x y _ _ hx hy =>
          cases hx.eq_of_nested
          obtain ⟨b, hb, htext, hdeclares⟩ := exists_block hv hx (y ++ u)
          exact ⟨b, by simpa using hb, htext, hdeclares⟩

/-- Behind a brace outside of all literals the body is marked as if it stood alone. -/
theorem atBrace_of_not_holds {front rest : Text}
    (hbrace : Span.anyHolds (Text.spans (front ++ '{' :: rest)) front.size = false) :
    atBrace (front ++ '{' :: rest) front.size = read 0 false [] rest.glyphs := by
  have hfront : Quote.after none front = none := Text.after_of_not_holds rfl hbrace
  have hopen : Quote.after none (front ++ ['{']) = none := by
    rw [Quote.after_append, hfront]
    rfl
  have hsource : front ++ '{' :: rest = (front ++ ['{']) ++ rest := by simp
  have hlength : (front ++ ['{']).glyphs.length = (front ++ ['{']).length := by
    rw [← List.length_map (f := Glyph.char), ← Glyph.chars, Text.chars_glyphs]
  have hcut : Text.splitAtByte? (front.size + 1) ((front ++ ['{']) ++ rest) =
      some (front ++ ['{'], rest) := by
    rw [← Text.splitAtByte?_size, Text.size_append]
    rfl
  rw [hsource, atBrace, hcut]
  dsimp only
  rw [Text.glyphs_append hopen, List.drop_left' hlength, ofGlyphs]

/-- Behind a brace outside of all literals, a block directly inside the body is one of its
pieces. It is taken for a declaration exactly if a keyword of a type is one of the words of its
head, be it outside of literals or inside one, and stays with the members otherwise. The body
has no other declarations. -/
theorem diverted_iff {front rest : Text}
    (hbrace : Span.anyHolds (Text.spans (front ++ '{' :: rest)) front.size = false) :
    (∀ b : Block, b.StandsIn rest → ∃ pieces piece more,
      (atBrace (front ++ '{' :: rest) front.size).pieces = pieces ++ piece :: more ∧
        pieces.flatMap Piece.text = b.before ∧
        (piece = .nested b.text ↔
          KeywordAmong false b.head.glyphs ∨ KeywordAmong true b.head.glyphs) ∧
        (piece = .member b.text ↔
          ¬(KeywordAmong false b.head.glyphs ∨ KeywordAmong true b.head.glyphs))) ∧
    ∀ d ∈ (atBrace (front ++ '{' :: rest) front.size).nested, ∃ b : Block, b.StandsIn rest ∧
      b.text = d ∧ (KeywordAmong false b.head.glyphs ∨ KeywordAmong true b.head.glyphs) := by
  have hkeyword (b : Block) : declaresType b.head = true ↔
      KeywordAmong false b.head.glyphs ∨ KeywordAmong true b.head.glyphs :=
    declaresType_iff_keywordAmong none b.head
  rw [atBrace_of_not_holds hbrace]
  constructor
  · intro b hb
    obtain ⟨pieces, more, hpieces, hbefore⟩ := hb.exists_pieces
    refine ⟨pieces, _, more, hpieces, hbefore, ?_⟩
    rw [← hkeyword b, Piece.block]
    cases declaresType b.head with
    | false => simp
    | true => simp
  · intro d hd
    obtain ⟨b, hb, htext, hdeclares⟩ := exists_block_of_mem_nested hd
    exact ⟨b, hb, htext, (hkeyword b).mp hdeclares⟩

/-- The prose of an annotation makes a declaration out of the method that it is about. -/
theorem diverted_iff_prose :
    ∃ pieces piece more,
      (atBrace "class A\x7b@Test(\"a class of one\")void f(){}\x7d".toList 7).pieces =
        pieces ++ piece :: more ∧
      pieces.flatMap Piece.text = [] ∧
      piece = .nested "@Test(\"a class of one\")void f(){}".toList := by
  have hbrace : Span.anyHolds (Text.spans
      ("class A".toList ++ '{' :: "@Test(\"a class of one\")void f(){}\x7d".toList))
      (Text.size "class A".toList) = false := by
    decide +kernel
  let b : Block := ⟨[], "@Test(\"a class of one\")void f()".toList, []⟩
  have hb : b.StandsIn "@Test(\"a class of one\")void f(){}\x7d".toList :=
    { source := ⟨['}'], by decide +kernel⟩
      depth := rfl
      boundary := fun mark hmark => by cases hmark
      passive := by decide +kernel
      opening := by decide +kernel
      inside := rfl
      closing := rfl }
  have hkeyword : KeywordAmong true b.head.glyphs :=
    ⟨Text.glyphs "@Test(\"a ".toList, "class".toList.map fun c => ⟨c, true⟩,
      Text.glyphsFrom (some .quotation) " of one\")void f()".toList, by decide +kernel,
      by decide +kernel, by decide +kernel, by decide +kernel, by decide +kernel⟩
  obtain ⟨pieces, piece, more, hpieces, hbefore, hnested, -⟩ := (diverted_iff hbrace).1 b hb
  exact ⟨pieces, piece, more, hpieces, hbefore, hnested.mpr (.inr hkeyword)⟩

end Body

end Declaration

end ClassDiagram
