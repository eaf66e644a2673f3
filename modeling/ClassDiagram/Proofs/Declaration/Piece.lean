import ClassDiagram.Catalogue.File
import ClassDiagram.Proofs.Literal.Bare
import ClassDiagram.Proofs.Text.Brackets
import Mathlib.Logic.Basic

/-!
# Pieces of a body

A complete piece of a body is a statement up to its semicolon or a block up to the
brace that closes it, where literals hide marks. A body takes such a piece as a whole,
whatever follows it (`read_complete`), and conversely every body begins with a complete
piece unless all of it is one remainder (`read_cases`). So the glyphs in front of a
piece can be read off from the pieces of a body (`exists_complete`).
-/

namespace ClassDiagram

/-- A glyph that is no brace and no semicolon outside literals. -/
def Glyph.Passive (g : Glyph) : Prop :=
  g.role ≠ .openBrace ∧ g.role ≠ .closeBrace ∧ g.role ≠ .semicolon

instance (g : Glyph) : Decidable g.Passive :=
  inferInstanceAs (Decidable (g.role ≠ .openBrace ∧ g.role ≠ .closeBrace ∧ g.role ≠ .semicolon))

/-- Glyphs fall into passive ones, and the first other one with what follows it. -/
theorem Glyph.passive_or_split (gs : List Glyph) :
    (∀ g ∈ gs, g.Passive) ∨
      ∃ head mark rest, gs = head ++ mark :: rest ∧ (∀ g ∈ head, g.Passive) ∧ ¬mark.Passive := by
  induction gs with
  | nil => exact .inl fun g hg => absurd hg List.not_mem_nil
  | cons g gs ih =>
      by_cases hg : g.Passive
      · rcases ih with hall | ⟨head, mark, rest, rfl, hhead, hmark⟩
        · exact .inl (List.forall_mem_cons.mpr ⟨hg, hall⟩)
        · exact .inr ⟨g :: head, mark, rest, rfl, List.forall_mem_cons.mpr ⟨hg, hhead⟩, hmark⟩
      · exact .inr ⟨[], g, gs, rfl, fun g hg => absurd hg List.not_mem_nil, hg⟩

theorem Glyph.role_of_not_passive {g : Glyph} (h : ¬g.Passive) :
    g.role = .openBrace ∨ g.role = .closeBrace ∨ g.role = .semicolon := by
  rw [Passive, not_and_or, not_and_or, not_not, not_not, not_not] at h
  exact h

theorem Glyph.not_plain_of_not_passive {g : Glyph} (h : ¬g.Passive) : g.role ≠ .plain := by
  rcases role_of_not_passive h with hrole | hrole | hrole <;> rw [hrole] <;> decide

/-- Passive glyphs leave the depth of braces as it is. -/
theorem Glyph.braces_passive {depth : Nat} {gs : List Glyph} (h : ∀ g ∈ gs, g.Passive) :
    braces.depth? depth gs = some depth :=
  Brackets.depth?_of_forall fun g hg =>
    ⟨beq_eq_false_iff_ne.mpr (h g hg).1, beq_eq_false_iff_ne.mpr (h g hg).2.1⟩

/-- What was seen grows from the front. -/
theorem Glyph.reverse_chars_cons (g : Glyph) (gs : List Glyph) (seen : Text) :
    (chars (g :: gs)).reverse ++ seen = (chars gs).reverse ++ (g.char :: seen) := by
  simp

namespace Declaration

namespace Body

/-! ## One glyph -/

section Step

variable {declares : Bool} {depth : Nat} {seen : Text} {g : Glyph} {gs : List Glyph}

theorem read_nil (depth : Nat) (declares : Bool) (seen : Text) :
    read depth declares seen [] = ⟨[.member seen.reverse], none⟩ := rfl

theorem read_open (h : g.role = .openBrace) :
    read 0 declares seen (g :: gs) = read 1 (declaresType seen.reverse) (g.char :: seen) gs := by
  simp only [read, h]

theorem read_open_inside (h : g.role = .openBrace) :
    read (depth + 1) declares seen (g :: gs) = read (depth + 2) declares (g.char :: seen) gs := by
  simp only [read, h]

theorem read_end (h : g.role = .closeBrace) :
    read 0 declares seen (g :: gs) = ⟨[.member seen.reverse], some gs⟩ := by
  simp only [read, h]

theorem read_close_block (h : g.role = .closeBrace) :
    read 1 declares seen (g :: gs) =
      (read 0 false [] gs).withPiece (.block declares (g.char :: seen).reverse) := by
  simp only [read, h]

theorem read_close_inside (h : g.role = .closeBrace) :
    read (depth + 2) declares seen (g :: gs) = read (depth + 1) declares (g.char :: seen) gs := by
  simp only [read, h]

theorem read_semicolon (h : g.role = .semicolon) :
    read 0 declares seen (g :: gs) =
      (read 0 false [] gs).withPiece (.member (g.char :: seen).reverse) := by
  simp only [read, h]

theorem read_other (hopen : g.role ≠ .openBrace) (hclose : g.role ≠ .closeBrace)
    (hsemicolon : depth = 0 → g.role ≠ .semicolon) :
    read depth declares seen (g :: gs) = read depth declares (g.char :: seen) gs := by
  rw [read.eq_def]
  dsimp only
  split
  · exact absurd ‹_› hopen
  · exact absurd ‹_› hopen
  · exact absurd ‹_› hclose
  · exact absurd ‹_› hclose
  · exact absurd ‹_› hclose
  · exact absurd ‹_› (hsemicolon rfl)
  · rfl

end Step

/-! ## Stretches of glyphs -/

section Stretch

variable {declares : Bool} {depth after : Nat} {seen : Text} {hs gs : List Glyph}

theorem read_passive (h : ∀ g ∈ hs, g.Passive) :
    read 0 declares seen (hs ++ gs) = read 0 declares ((Glyph.chars hs).reverse ++ seen) gs := by
  induction hs generalizing seen with
  | nil => rfl
  | cons g hs ih =>
      obtain ⟨⟨hopen, hclose, hsemicolon⟩, hrest⟩ := List.forall_mem_cons.mp h
      rw [List.cons_append, read_other hopen hclose fun _ => hsemicolon, ih hrest]
      simp

/-- Inside a block only the depth matters, until the block is closed. -/
theorem read_inside_block (h : Glyph.braces.depth? depth hs = some after) :
    read (depth + 1) declares seen (hs ++ gs) =
      read (after + 1) declares ((Glyph.chars hs).reverse ++ seen) gs := by
  replace h := Brackets.nesting_of_depth? h
  induction h generalizing seen with
  | nil => rfl
  | opening hopen _ ih =>
      rw [List.cons_append, read_open_inside (eq_of_beq hopen), ih, Glyph.reverse_chars_cons]
  | closing _ hclose _ ih =>
      rw [List.cons_append, read_close_inside (eq_of_beq hclose), ih, Glyph.reverse_chars_cons]
  | other hopen hclose _ ih =>
      rw [List.cons_append, read_other (beq_eq_false_iff_ne.mp hopen)
        (beq_eq_false_iff_ne.mp hclose) (by omega), ih, Glyph.reverse_chars_cons]

/-- A block is closed somewhere, or the body goes on in it to the end. -/
theorem inside_cases (depth : Nat) (gs : List Glyph) :
    (∃ inner mark rest, gs = inner ++ mark :: rest ∧ mark.role = .closeBrace ∧
        Glyph.braces.depth? depth inner = some 0) ∨
      ∀ declares seen, ∃ text, read (depth + 1) declares seen gs = ⟨[.member text], none⟩ := by
  induction gs generalizing depth with
  | nil => exact .inr fun declares seen => ⟨seen.reverse, read_nil _ _ _⟩
  | cons g gs ih =>
      by_cases hopen : g.role = .openBrace
      · rcases ih (depth + 1) with ⟨inner, mark, rest, rfl, hmark, hinner⟩ | hnone
        · exact .inl ⟨g :: inner, mark, rest, rfl, hmark, by rw [Glyph.braces_open hopen, hinner]⟩
        · refine .inr fun declares seen => ?_
          rw [read_open_inside hopen]
          exact hnone declares (g.char :: seen)
      · by_cases hclose : g.role = .closeBrace
        · cases depth with
          | zero => exact .inl ⟨[], g, gs, rfl, hclose, rfl⟩
          | succ depth =>
              rcases ih depth with ⟨inner, mark, rest, rfl, hmark, hinner⟩ | hnone
              · exact .inl ⟨g :: inner, mark, rest, rfl, hmark,
                  by rw [Glyph.braces_close hclose, hinner]⟩
              · refine .inr fun declares seen => ?_
                rw [read_close_inside hclose]
                exact hnone declares (g.char :: seen)
        · rcases ih depth with ⟨inner, mark, rest, rfl, hmark, hinner⟩ | hnone
          · exact .inl ⟨g :: inner, mark, rest, rfl, hmark,
              by rw [Glyph.braces_other hopen hclose, hinner]⟩
          · refine .inr fun declares seen => ?_
            rw [read_other hopen hclose (by omega)]
            exact hnone declares (g.char :: seen)

end Stretch

/-! ## Complete pieces -/

/-- The glyphs of a piece that is finished with its last glyph. -/
inductive Complete : List Glyph → Piece → Prop where
  | statement {head : List Glyph} {mark : Glyph} (hhead : ∀ g ∈ head, g.Passive)
      (hmark : mark.role = .semicolon) :
      Complete (head ++ [mark]) (.member (Glyph.chars (head ++ [mark])))
  | block {head inner : List Glyph} {opening closing : Glyph} (hhead : ∀ g ∈ head, g.Passive)
      (hopening : opening.role = .openBrace) (hinner : Glyph.braces.depth? 0 inner = some 0)
      (hclosing : closing.role = .closeBrace) :
      Complete (head ++ opening :: (inner ++ [closing]))
        (.block (declaresType (Glyph.chars head))
          (Glyph.chars (head ++ opening :: (inner ++ [closing]))))

/-- A complete piece is read as a whole. -/
theorem read_complete {hs gs : List Glyph} {piece : Piece} (h : Complete hs piece)
    (declares : Bool) :
    read 0 declares [] (hs ++ gs) = (read 0 false [] gs).withPiece piece := by
  cases h with
  | statement hhead hmark =>
      rw [List.append_assoc, read_passive hhead, List.singleton_append, read_semicolon hmark]
      simp
  | block hhead hopening hinner hclosing =>
      rw [List.append_assoc, read_passive hhead, List.append_nil, List.cons_append,
        List.append_assoc, read_open hopening, read_inside_block hinner, List.singleton_append,
        read_close_block hclosing]
      simp

theorem text_complete {hs : List Glyph} {piece : Piece} (h : Complete hs piece) :
    piece.text = Glyph.chars hs := by
  cases h with
  | statement hhead hmark => rfl
  | block hhead hopening hinner hclosing => rw [Piece.block]; split <;> rfl

/-- A body begins with a complete piece, or it is closed in the first one, or it is never
closed. -/
theorem read_cases (gs : List Glyph) :
    (∃ hs piece rest, gs = hs ++ rest ∧ Complete hs piece) ∨
      (∃ head mark rest, gs = head ++ mark :: rest ∧ (∀ g ∈ head, g.Passive) ∧
        mark.role = .closeBrace) ∨
      ∃ text, ∀ declares, read 0 declares [] gs = ⟨[.member text], none⟩ := by
  rcases Glyph.passive_or_split gs with hall | ⟨head, mark, rest, rfl, hhead, hmark⟩
  · refine .inr (.inr ⟨Glyph.chars gs, fun declares => ?_⟩)
    have hread : read 0 declares [] (gs ++ []) =
        read 0 declares ((Glyph.chars gs).reverse ++ []) [] := read_passive hall
    rw [List.append_nil] at hread
    rw [hread, read_nil]
    simp
  · rcases Glyph.role_of_not_passive hmark with hopen | hclose | hsemicolon
    · rcases inside_cases 0 rest with ⟨inner, closing, rest, rfl, hclosing, hinner⟩ | hnone
      · refine .inl ⟨_, _, rest, ?_, .block hhead hopen hinner hclosing⟩
        simp
      · obtain ⟨text, htext⟩ := hnone (declaresType (Glyph.chars head))
          (mark.char :: (Glyph.chars head).reverse)
        refine .inr (.inr ⟨text, fun declares => ?_⟩)
        rw [read_passive hhead, List.append_nil, read_open hopen, List.reverse_reverse]
        exact htext
    · exact .inr (.inl ⟨head, mark, rest, rfl, hhead, hclose⟩)
    · refine .inl ⟨_, _, rest, ?_, .statement hhead hsemicolon⟩
      simp

end Body

end Declaration

/-! ## Marked texts -/

/-- A mark of the structure stands outside literals, and behind it none is open. -/
theorem Quote.next_of_role {pending : Option Quote} {c : Char}
    (h : Glyph.role ⟨c, encloses pending c⟩ ≠ .plain) : pending = none ∧ next pending c = none := by
  have hquote : ofChar? c = none := by
    have hplain : ∀ quoted,
        Glyph.role ⟨'\'', quoted⟩ = .plain ∧ Glyph.role ⟨'"', quoted⟩ = .plain := by
      decide
    rw [ofChar?]
    split
    · rename_i hc
      rw [eq_of_beq hc] at h
      exact absurd (hplain _).1 h
    · split
      · rename_i hc
        rw [eq_of_beq hc] at h
        exact absurd (hplain _).2 h
      · rfl
  cases pending with
  | none => exact ⟨rfl, hquote⟩
  | some quote =>
      have henclosed : encloses (some quote) c = true := by simp [encloses, hquote]
      rw [henclosed, Glyph.role_quoted] at h
      exact absurd rfl h

namespace Text

theorem after_of_glyphs {s : Text} {hs : List Glyph} {g : Glyph} (h : s.glyphs = hs ++ [g])
    (hg : g.role ≠ .plain) : Quote.after none s = none := by
  obtain ⟨rfl, -, hlast⟩ := glyphsFrom_split h
  rw [Glyph.chars_cons, Glyph.chars_nil, glyphsFrom_cons, glyphsFrom_nil] at hlast
  rw [← (List.cons.inj hlast).1] at hg
  rw [Glyph.chars_cons, Glyph.chars_nil, Quote.after_append]
  exact (Quote.next_of_role hg).2

/-- A text that leaves no literal open is marked as if it stood alone. -/
theorem glyphs_append {s : Text} (hs : Quote.after none s = none) (t : Text) :
    (s ++ t).glyphs = s.glyphs ++ t.glyphs := by
  rw [glyphs, glyphsFrom_append, hs, glyphs, glyphs]

/-- A mark outside literals parts a text into two that are marked as if they stood alone. -/
theorem glyphs_split_at {s : Text} {head rest : List Glyph} {mark : Glyph}
    (h : s.glyphs = head ++ mark :: rest) (hmark : mark.role ≠ .plain) :
    s = Glyph.chars head ++ mark.char :: Glyph.chars rest ∧
      glyphs (Glyph.chars head) = head ∧ Quote.after none (Glyph.chars head) = none ∧
      glyphs (Glyph.chars rest) = rest := by
  obtain ⟨htext, hhead, hrest⟩ := glyphsFrom_split h
  rw [Glyph.chars_cons, glyphsFrom_cons] at hrest
  obtain ⟨hfirst, htail⟩ := List.cons.inj hrest
  rw [← hfirst] at hmark
  obtain ⟨hopen, hnext⟩ := Quote.next_of_role hmark
  rw [hnext] at htail
  exact ⟨htext, hhead, hopen, htail⟩

end Text

namespace Declaration

/-- A text that is a complete piece of any body in which it stands. -/
structure WholePiece (s : Text) (piece : Piece) : Prop where
  complete : Body.Complete s.glyphs piece
  unquoted : Quote.after none s = none

/-- A complete piece ends in a mark. -/
theorem Body.Complete.exists_concat {hs : List Glyph} {piece : Piece} (h : Complete hs piece) :
    ∃ front mark, hs = front ++ [mark] ∧ ¬mark.Passive := by
  cases h with
  | @statement head mark hhead hmark => exact ⟨head, mark, rfl, fun hp => hp.2.2 hmark⟩
  | @block head inner opening closing hhead hopening hinner hclosing =>
      exact ⟨head ++ opening :: inner, closing, by simp, fun hp => hp.2.1 hclosing⟩

/-- A complete piece closes the braces that it opens. -/
theorem Body.Complete.braces {hs : List Glyph} {piece : Piece} (h : Complete hs piece) :
    Glyph.braces.depth? 0 hs = some 0 := by
  cases h with
  | @statement head mark hhead hmark =>
      rw [Brackets.depth?_append, Glyph.braces_passive hhead, Option.bind_some,
        Glyph.braces_other (by rw [hmark]; decide) (by rw [hmark]; decide)]
      rfl
  | @block head inner opening closing hhead hopening hinner hclosing =>
      rw [Brackets.depth?_append, Glyph.braces_passive hhead, Option.bind_some,
        Glyph.braces_open hopening, Brackets.depth?_append, Brackets.depth?_add hinner 1,
        Option.bind_some, Glyph.braces_close hclosing]
      rfl

theorem Body.Complete.wholePiece {t : Text} {hs rest : List Glyph} {piece : Piece}
    (h : Complete hs piece) (ht : t.glyphs = hs ++ rest) :
    ∃ s u, t = s ++ u ∧ WholePiece s piece := by
  obtain ⟨htext, hglyphs, -⟩ := Text.glyphsFrom_split ht
  obtain ⟨front, mark, hconcat, hmark⟩ := h.exists_concat
  refine ⟨_, _, htext, ⟨by rwa [Text.glyphs, hglyphs], ?_⟩⟩
  exact Text.after_of_glyphs (hglyphs.trans hconcat) (Glyph.not_plain_of_not_passive hmark)

theorem WholePiece.text_eq {s : Text} {piece : Piece} (h : WholePiece s piece) :
    piece.text = s := by
  rw [Body.text_complete h.complete, Text.chars_glyphs]

/-- A text that falls into complete pieces. -/
inductive Pieces : Text → List Piece → Prop where
  | nil : Pieces [] []
  | cons {s t : Text} {piece : Piece} {pieces : List Piece} (hs : WholePiece s piece)
      (ht : Pieces t pieces) : Pieces (s ++ t) (piece :: pieces)

namespace Pieces

variable {s t : Text} {pieces more : List Piece}

theorem append (hs : Pieces s pieces) (ht : Pieces t more) : Pieces (s ++ t) (pieces ++ more) := by
  induction hs with
  | nil => exact ht
  | cons hpiece _ ih =>
      rw [List.append_assoc]
      exact .cons hpiece ih

theorem text_eq (hs : Pieces s pieces) : pieces.flatMap Piece.text = s := by
  induction hs with
  | nil => rfl
  | cons hpiece _ ih => rw [List.flatMap_cons, hpiece.text_eq, ih]

theorem unquoted (hs : Pieces s pieces) : Quote.after none s = none := by
  induction hs with
  | nil => rfl
  | cons hpiece _ ih => rw [Quote.after_append, hpiece.unquoted, ih]

theorem of_append (hs : Pieces s (pieces ++ more)) :
    ∃ t u, s = t ++ u ∧ Pieces t pieces ∧ Pieces u more := by
  induction pieces generalizing s with
  | nil => exact ⟨[], s, rfl, .nil, hs⟩
  | cons piece pieces ih =>
      cases hs with
      | cons hpiece hrest =>
          obtain ⟨t, u, rfl, ht, hu⟩ := ih hrest
          exact ⟨_, u, (List.append_assoc ..).symm, .cons hpiece ht, hu⟩

/-- Complete pieces are pieces of any body that begins with their text. -/
theorem read_append (hs : Pieces s pieces) (t : Text) :
    Body.read 0 false [] (s ++ t).glyphs =
      ⟨pieces ++ (Body.read 0 false [] t.glyphs).pieces,
        (Body.read 0 false [] t.glyphs).behind⟩ := by
  induction hs with
  | nil => rfl
  | cons hpiece _ ih =>
      rw [List.append_assoc, Text.glyphs_append hpiece.unquoted,
        Body.read_complete hpiece.complete, ih]
      rfl

end Pieces

theorem eq_of_role_closeBrace {g : Glyph} (h : g.role = .closeBrace) : g = ⟨'}', false⟩ :=
  Glyph.eq_of_role (c := '}') h (by decide)

/-- The pieces of a body: complete ones, and a remainder up to the closing brace or the
end. -/
theorem exists_pieces (t : Text) :
    ∃ s u pieces, t = s ++ u ∧ Pieces s pieces ∧
      ((∃ head rest : Text, u = head ++ '}' :: rest ∧
          Body.read 0 false [] u.glyphs = ⟨[.member head], some rest.glyphs⟩) ∨
        ∃ text, Body.read 0 false [] u.glyphs = ⟨[.member text], none⟩) := by
  induction hlength : t.length using Nat.strongRecOn generalizing t with
  | ind n ih =>
      rcases Body.read_cases t.glyphs with
        ⟨hs, piece, rest, hglyphs, hpiece⟩ | ⟨head, mark, rest, hglyphs, hhead, hmark⟩ |
          ⟨text, htext⟩
      · obtain ⟨s, u, rfl, hs⟩ := hpiece.wholePiece hglyphs
        have hne : s ≠ [] := by
          rintro rfl
          obtain ⟨front, mark, hconcat, -⟩ := hs.complete.exists_concat
          simp [Text.glyphs] at hconcat
        have hlt : u.length < n := by
          have := List.length_pos_iff.mpr hne
          rw [List.length_append] at hlength
          omega
        obtain ⟨v, w, pieces, rfl, hv, hw⟩ := ih u.length hlt u rfl
        exact ⟨s ++ v, w, piece :: pieces, (List.append_assoc ..).symm, .cons hs hv, hw⟩
      · refine ⟨[], t, [], rfl, .nil, .inl ?_⟩
        cases eq_of_role_closeBrace hmark
        have hcut : t.glyphs = (head ++ [⟨'}', false⟩]) ++ rest := by
          rw [List.append_assoc]
          exact hglyphs
        obtain ⟨htext, hfront, hrest⟩ := Text.glyphsFrom_split hcut
        have hclosed : Quote.after none (Glyph.chars (head ++ [⟨'}', false⟩])) = none :=
          Text.after_of_glyphs hfront (by decide)
        rw [hclosed] at hrest
        refine ⟨Glyph.chars head, Glyph.chars rest, ?_, ?_⟩
        · rw [htext]
          simp
        · rw [hglyphs, Body.read_passive hhead, Body.read_end rfl, List.append_nil,
            List.reverse_reverse, Text.glyphs, hrest]
      · exact ⟨[], t, [], rfl, .nil, .inr ⟨text, htext false⟩⟩

end Declaration

end ClassDiagram
