import ClassDiagram.Proofs.Declaration.Local
import ClassDiagram.Proofs.Declaration.Waiting

/-!
# A nested declaration and what may stand in its place

Blanks in front of a nested declaration may go, and a text without marks may stand there,
as long as it declares as much as before (`WholePiece.front`). A body stays as it is around
a nested declaration when other complete pieces take its place (`exists_nested`). As long as
the children keep their names, the file is still read, and only the member text of the new
pieces changes its entry (`read_replaced`).
-/

namespace ClassDiagram

namespace Declaration

/-! ## The glyphs of a nested declaration -/

/-- The glyphs of a block in front of whose brace a type is declared. -/
theorem wholePiece_nested_iff {s : Text} :
    WholePiece s (.nested s) ↔
      (∃ head opening inner closing, s.glyphs = head ++ opening :: (inner ++ [closing]) ∧
        (∀ g ∈ head, g.Passive) ∧ opening.role = .openBrace ∧ Glyph.braces.depth? 0 inner = some 0 ∧
        closing.role = .closeBrace ∧ declaresType (Glyph.chars head) = true) ∧
      Quote.after none s = none := by
  constructor
  · rintro ⟨hcomplete, hunquoted⟩
    refine ⟨?_, hunquoted⟩
    generalize s.glyphs = gs at hcomplete
    generalize hpiece : Piece.nested s = piece at hcomplete
    cases hcomplete with
    | statement hhead hmark => cases hpiece
    | @block head inner opening closing hhead hopening hinner hclosing =>
        refine ⟨head, opening, inner, closing, rfl, hhead, hopening, hinner, hclosing, ?_⟩
        rw [Piece.block] at hpiece
        split at hpiece
        · assumption
        · cases hpiece
  · rintro ⟨⟨head, opening, inner, closing, hglyphs, hhead, hopening, hinner, hclosing, hdeclares⟩,
      hunquoted⟩
    have hblock := Body.Complete.block hhead hopening hinner hclosing
    rw [← hglyphs, Text.chars_glyphs, hdeclares] at hblock
    exact ⟨hblock, hunquoted⟩

theorem WholePiece.eq_of_nested {s d : Text} (h : WholePiece s (.nested d)) : d = s := h.text_eq

/-- A nested declaration begins with a character that ends no run. -/
theorem WholePiece.exists_head {s : Text} (h : WholePiece s (.nested s)) :
    ∃ c t, s = c :: t ∧ endsRun c = false := by
  obtain ⟨⟨head, opening, inner, closing, hglyphs, hhead, -, -, -, hdeclares⟩, -⟩ :=
    wholePiece_nested_iff.mp h
  cases head with
  | nil => exact absurd hdeclares (by decide)
  | cons g head =>
      cases s with
      | nil => cases hglyphs
      | cons c t =>
          refine ⟨c, t, rfl, ?_⟩
          have hpassive : Glyph.Passive ⟨c, false⟩ := by
            have hg := hhead g (by simp)
            rwa [← (List.cons.inj hglyphs).1] at hg
          rw [← Bool.not_eq_true]
          intro hc
          simp only [endsRun, Bool.or_eq_true, beq_iff_eq] at hc
          obtain (rfl | rfl) | rfl := hc <;> exact absurd hpassive (by decide)

theorem WholePiece.of_blank {c : Char} {t : Text} (hc : Text.isBlank c = true)
    (h : WholePiece (c :: t) (.nested (c :: t))) : WholePiece t (.nested t) := by
  rw [wholePiece_nested_iff] at h ⊢
  obtain ⟨⟨head, opening, inner, closing, hglyphs, hhead, hopening, hinner, hclosing, hdeclares⟩,
    hunquoted⟩ := h
  have hnext : Quote.next none c = none := Text.ofChar?_of_isBlank hc
  rw [Text.glyphs, Text.glyphsFrom_cons, hnext] at hglyphs
  rw [Quote.after_cons, hnext] at hunquoted
  refine ⟨?_, hunquoted⟩
  cases head with
  | nil =>
      rw [← (List.cons.inj hglyphs).1] at hopening
      exact absurd hopening (passive_of_endsRun (endsRun_of_isBlank hc) false).1
  | cons g head =>
      obtain ⟨rfl, hrest⟩ := List.cons.inj hglyphs
      rw [Glyph.chars_cons, declaresType, Text.words_blank hc] at hdeclares
      exact ⟨head, opening, inner, closing, hrest, fun g hg => hhead g (List.mem_cons_of_mem _ hg),
        hopening, hinner, hclosing, hdeclares⟩

/-- The blanks in front of a nested declaration are no part of it. -/
theorem WholePiece.trimStart {s : Text} (h : WholePiece s (.nested s)) :
    WholePiece (Text.trimStart s) (.nested (Text.trimStart s)) := by
  induction s with
  | nil => exact h
  | cons c s ih =>
      cases hc : Text.isBlank c with
      | true =>
          rw [Text.trimStart_blank hc]
          exact ih (h.of_blank hc)
      | false => rwa [Text.trimStart_of_head? (by simpa using hc)]

theorem WholePiece.trimStart_ne_nil {s : Text} (h : WholePiece s (.nested s)) :
    Text.trimStart s ≠ [] := by
  obtain ⟨c, t, hcons, -⟩ := h.trimStart.exists_head
  rw [hcons]
  exact List.cons_ne_nil _ _

/-- A text without marks in front of a nested declaration joins it. -/
theorem WholePiece.front {x s : Text} (hx : x.Unquoted) (hrun : ∀ c ∈ x, endsRun c = false)
    (h : WholePiece s (.nested s))
    (hdeclares : ∀ head rest, s = head ++ rest → head ≠ [] → declaresType head = true →
      declaresType (x ++ head) = true) : WholePiece (x ++ s) (.nested (x ++ s)) := by
  rw [wholePiece_nested_iff] at h ⊢
  obtain ⟨⟨head, opening, inner, closing, hglyphs, hhead, hopening, hinner, hclosing, hdeclared⟩,
    hunquoted⟩ := h
  refine ⟨⟨Text.bare x ++ head, opening, inner, closing, ?_, ?_, hopening, hinner, hclosing, ?_⟩,
    by rw [Quote.after_append, Quote.after_unquoted hx, hunquoted]⟩
  · rw [Text.glyphs_unquoted_append hx, hglyphs, List.append_assoc]
  · intro g hg
    rcases List.mem_append.mp hg with hg | hg
    · exact passive_bare hrun g hg
    · exact hhead g hg
  · rw [Glyph.chars_append, Text.chars_bare]
    refine hdeclares _ _ ((Text.glyphsFrom_split hglyphs).1) ?_ hdeclared
    intro hnil
    rw [hnil] at hdeclared
    cases hdeclared

/-! ## The pieces around it -/

/-- Complete pieces end in a mark. -/
theorem Pieces.eq_nil_or_concat {s : Text} {pieces : List Piece} (h : Pieces s pieces) :
    s = [] ∨ ∃ u c, s = u ++ [c] ∧ endsRun c = true := by
  induction h with
  | nil => exact .inl rfl
  | @cons s t piece pieces hpiece _ ih =>
      rcases ih with rfl | ⟨u, c, rfl, hc⟩
      · obtain ⟨front, mark, hconcat, hmark⟩ := hpiece.complete.exists_concat
        have hchars := Text.chars_glyphs s
        rw [hconcat, Glyph.chars_append] at hchars
        refine .inr ⟨Glyph.chars front, mark.char, by rw [← hchars]; simp, ?_⟩
        rw [← Bool.not_eq_false]
        exact fun hends => hmark (passive_of_endsRun hends mark.quoted)
      · exact .inr ⟨s ++ u, c, (List.append_assoc ..).symm, hc⟩

/-- A keyword that is missing behind complete pieces has to be looked for only there. -/
theorem Pieces.firstRun?_eq_none {name s t u : Text} {pieces : List Piece} (hs : Pieces s pieces)
    (hname : ∀ d ∈ name, endsRun d = false)
    (h : firstRun? (keywordMention name) (s ++ t) = none)
    (hu : firstRun? (keywordMention name) t = none → firstRun? (keywordMention name) u = none) :
    firstRun? (keywordMention name) (s ++ u) = none := by
  have hcut {c : Char} (hc : endsRun c = true) := firstRun?_cut_eq_none_iff
    (local_keywordMention hname) (reads_keywordMention name) hc
  rcases hs.eq_nil_or_concat with rfl | ⟨v, mark, rfl, hmark⟩
  · exact hu h
  · rw [List.append_assoc, List.singleton_append, hcut hmark] at h ⊢
    exact ⟨h.1, hu h.2⟩

theorem WholePiece.pieces {s : Text} {piece : Piece} (h : WholePiece s piece) :
    Pieces s [piece] := by
  have hone := Pieces.cons h .nil
  rwa [List.append_nil] at hone

/-- The member text of complete pieces leaves no literal and no brace open. -/
theorem Pieces.members {s : Text} {pieces : List Piece} (h : Pieces s pieces) :
    Quote.after none (pieces.flatMap Piece.memberText) = none ∧
      Glyph.braces.depth? 0 (Text.glyphs (pieces.flatMap Piece.memberText)) = some 0 := by
  induction h with
  | nil => exact ⟨rfl, rfl⟩
  | @cons s t piece pieces hpiece _ ih =>
      obtain ⟨hunquoted, hdepth⟩ := ih
      rw [List.flatMap_cons]
      cases piece with
      | nested text => exact ⟨hunquoted, hdepth⟩
      | member text =>
          have htext : text = s := hpiece.text_eq
          subst htext
          rw [Piece.memberText, Quote.after_append, hpiece.unquoted,
            Text.glyphs_append hpiece.unquoted, Brackets.depth?_append, hpiece.complete.braces]
          exact ⟨hunquoted, hdepth⟩

/-- A body around one of its nested declarations, for which other complete pieces may
stand. -/
theorem Header.exists_nested {header : Header} {before after : List Piece} {d : Text}
    (hbrace : Quote.after none (header.before ++ header.run) = none)
    (hpieces : header.body.pieces = before ++ .nested d :: after) :
    ∃ s rest, header.behind = s ++ (d ++ rest) ∧ Pieces s before ∧ WholePiece d (.nested d) ∧
      ∀ t pieces, Pieces t pieces → ({ header with behind := s ++ (t ++ rest) } : Header).body =
        ⟨before ++ (pieces ++ after), header.body.behind⟩ := by
  obtain ⟨u, rest, pieces, last, hbehind, hu, hrest, hall⟩ := exists_body_pieces hbrace
  obtain ⟨more, rfl, rfl⟩ : ∃ more, pieces = before ++ .nested d :: more ∧
      after = more ++ [.member last] := by
    rw [hall] at hpieces
    rcases after.eq_nil_or_concat with rfl | ⟨more, piece, rfl⟩
    · exact absurd (List.append_inj_right' hpieces rfl) (by simp)
    · rw [List.concat_eq_append, ← List.cons_append, ← List.append_assoc] at hpieces
      have hlast := List.append_inj_right' hpieces rfl
      exact ⟨more, List.append_inj_left' hpieces rfl, by rw [List.concat_eq_append, hlast]⟩
  obtain ⟨s, v, rfl, hs, hv⟩ := hu.of_append
  cases hv with
  | @cons d' w _ _ hd hw =>
      cases hd.eq_of_nested
      refine ⟨s, w ++ rest, by rw [hbehind]; simp, hs, hd, fun t pieces ht => ?_⟩
      have hbody : Header.body { header with behind := s ++ (t ++ (w ++ rest)) } = _ :=
        body_of_unquoted hbrace
      rw [hbody, hs.read_append, ht.read_append, hw.read_append, hrest]

end Declaration

open Declaration

/-! ## Reading the file -/

/-- The members of a type go only into its fields and its methods. -/
theorem SourceFile.entry_members (settings : Settings) (id other : Identifier) (file : SourceFile)
    (signature : Signature) (members more : Text) :
    file.entry settings other signature more =
      { file.entry settings id signature members with
        id := other
        fields := (file.entry settings id signature members).fields.map fun _ =>
          Member.allFields settings.decoding (Member.records more)
        methods := (file.entry settings id signature members).methods.map fun _ =>
          Member.allMethods settings.decoding file.name.toList (Member.records more) } := by
  simp only [entry]
  split <;> rfl

/-- A file stays readable when other text stands behind the brace of its header and gives
children of the same names. Only the member text changes its entry. -/
theorem SourceFile.read_replaced {settings : Settings} {id : Identifier} {file : SourceFile}
    {reading : Reading} {header : Header} {behind : Text} {text : String}
    (hname : ∀ c ∈ file.name.toList, endsRun c = false)
    (hread : file.read settings id = .ok reading)
    (hlocate : Header.locate? (Source.dense file.text.toList) file.name.toList = some header)
    (htext : Source.dense text.toList = header.before ++ header.run ++ '{' :: behind)
    (hkeyword : firstRun? (keywordMention file.name.toList) header.behind = none →
      firstRun? (keywordMention file.name.toList) behind = none)
    (hchildren : ∀ files, children file.name header.leftover = .ok files →
      ∃ found, children file.name ({ header with behind } : Header).leftover = .ok found ∧
        found.map SourceFile.name = files.map SourceFile.name) (other : Identifier) :
    ∃ signature children,
      file.entry settings id signature header.body.members = reading.entry ∧
      ({ file with text } : SourceFile).read settings other =
        .ok ⟨file.entry settings other signature ({ header with behind } : Header).body.members,
          children⟩ ∧
      children.map SourceFile.name = reading.children.map SourceFile.name := by
  obtain ⟨found, signature, hfound, hsignature, hfiles, hentry⟩ := read_eq_ok_iff.mp hread
  rw [hlocate] at hfound
  cases hfound
  have hlocate' := Header.locate?_behind hname hlocate hkeyword
  rw [← htext] at hlocate'
  obtain ⟨again, hagain, hnames⟩ := hchildren _ hfiles
  exact ⟨signature, again, hentry, read_eq_ok_iff.mpr
    ⟨{ header with behind }, signature, hlocate', hsignature, hagain, rfl⟩, hnames⟩

end ClassDiagram
