import ClassDiagram.Proofs.Declaration.Leftover

/-!
# Blocks

A block is a text without marks, an opening brace, a text whose braces are paired, and the brace
that closes it. It is a complete piece, and so is a statement with its semicolon. Both scans that
cut a text into declarations take such a piece as a whole, whatever follows it.
-/

namespace ClassDiagram.Declaration

/-- The braces of a text are paired. -/
inductive Paired : Text → Prop where
  | nil : Paired []
  | cons {c : Char} {t : Text} (hopen : c ≠ '{') (hclose : c ≠ '}') (ht : Paired t) :
      Paired (c :: t)
  | group {s t : Text} (hs : Paired s) (ht : Paired t) : Paired ('{' :: (s ++ '}' :: t))

namespace Paired

variable {s t : Text}

theorem append (hs : Paired s) (ht : Paired t) : Paired (s ++ t) := by
  induction hs with
  | nil => exact ht
  | cons hopen hclose _ ih => exact .cons hopen hclose ih
  | group hs _ _ ih =>
      rw [List.cons_append, List.append_assoc, List.cons_append]
      exact .group hs ih

theorem of_unbraced (hs : ∀ c ∈ s, c ≠ '{' ∧ c ≠ '}') : Paired s := by
  induction s with
  | nil => exact .nil
  | cons c s ih =>
      obtain ⟨hopen, hclose⟩ := hs c (by simp)
      exact .cons hopen hclose (ih fun d hd => hs d (List.mem_cons_of_mem _ hd))

/-- A stretch without marks has no brace to pair. -/
theorem of_run (hs : ∀ c ∈ s, endsRun c = false) : Paired s := by
  apply of_unbraced
  intro c hc
  have hmark := hs c hc
  constructor
  · rintro rfl
    cases hmark
  · rintro rfl
    cases hmark

theorem flatMap {α : Type} {item : α → Text} {as : List α} (hitem : ∀ a ∈ as, Paired (item a)) :
    Paired (as.flatMap item) := by
  induction as with
  | nil => exact .nil
  | cons a as ih =>
      rw [List.flatMap_cons]
      exact (hitem a (by simp)).append (ih fun b hb => hitem b (List.mem_cons_of_mem _ hb))

/-- The braces of such a text are all closed again. -/
theorem braces (hs : Paired s) (depth : Nat) :
    Glyph.braces.depth? depth (Text.bare s) = some depth := by
  induction hs generalizing depth with
  | nil => rfl
  | @cons c t hopen hclose _ ih =>
      have hopen' : (⟨c, false⟩ : Glyph).role ≠ .openBrace := fun hrole =>
        hopen (Glyph.char_of_role_openBrace hrole)
      have hclose' : (⟨c, false⟩ : Glyph).role ≠ .closeBrace := fun hrole =>
        hclose (congrArg Glyph.char (eq_of_role_closeBrace hrole))
      rw [Text.bare_cons, Glyph.braces_other hopen' hclose', ih]
  | group _ _ ihs iht =>
      rw [Text.bare_cons, Text.bare_append, Text.bare_cons, Glyph.braces_open rfl,
        Brackets.depth?_append, ihs, Option.bind_some, Glyph.braces_close rfl, iht]

end Paired

section Run

variable {s inner : Text}

/-- A statement is a complete piece of a body. -/
theorem Body.complete_statement (hs : ∀ c ∈ s, endsRun c = false) :
    Complete (Text.bare (s ++ [';'])) (.member (s ++ [';'])) := by
  have hbare : Text.bare (s ++ [';']) = Text.bare s ++ [⟨';', false⟩] := Text.bare_append s [';']
  have hcomplete : Complete (Text.bare s ++ [⟨';', false⟩])
      (.member (Glyph.chars (Text.bare s ++ [⟨';', false⟩]))) := .statement (passive_bare hs) rfl
  rwa [← hbare, Text.chars_bare] at hcomplete

theorem bare_block (s inner : Text) :
    Text.bare (s ++ '{' :: (inner ++ ['}'])) =
      Text.bare s ++ ⟨'{', false⟩ :: (Text.bare inner ++ [⟨'}', false⟩]) := by
  simp

/-- A block is a complete piece of a body. -/
theorem Body.complete_block (hs : ∀ c ∈ s, endsRun c = false) (hinner : Paired inner) :
    Complete (Text.bare (s ++ '{' :: (inner ++ ['}'])))
      (.block (declaresType s) (s ++ '{' :: (inner ++ ['}']))) := by
  have hcomplete : Complete (Text.bare s ++ ⟨'{', false⟩ :: (Text.bare inner ++ [⟨'}', false⟩]))
      (.block (declaresType (Glyph.chars (Text.bare s)))
        (Glyph.chars (Text.bare s ++ ⟨'{', false⟩ :: (Text.bare inner ++ [⟨'}', false⟩])))) :=
    .block (passive_bare hs) rfl (hinner.braces 0) rfl
  rwa [← bare_block, Text.chars_bare, Text.chars_bare] at hcomplete

/-- A block in front of a text is the first of its blocks. -/
theorem blocks_block (hs : ∀ c ∈ s, endsRun c = false) (hinner : Paired inner)
    (hfirst : s.head?.any Text.isBlank = false)
    (hunquoted : Text.Unquoted (s ++ '{' :: (inner ++ ['}']))) (t : Text) :
    blocks (s ++ '{' :: (inner ++ ['}']) ++ t) = (s ++ '{' :: (inner ++ ['}'])) :: blocks t := by
  have htrim : Text.trim (s ++ '{' :: (inner ++ ['}'])) = s ++ '{' :: (inner ++ ['}']) := by
    refine Text.trim_of_ends ?_ ?_
    · cases s with
      | nil => rfl
      | cons c s => exact hfirst
    · rw [← List.cons_append, ← List.append_assoc, List.getLast?_concat]
      rfl
  rw [blocks, Text.glyphs_unquoted_append hunquoted, bare_block,
    blocksFrom_block (passive_bare hs) rfl (hinner.braces 0) rfl, ← bare_block,
    Text.chars_bare, List.map_cons, htrim, blocks]

end Run

/-- Items that are one piece each are as many pieces of a body. -/
theorem Body.read_items {α : Type} {item : α → Text} {piece : α → Piece} {as : List α}
    (hitem : ∀ a ∈ as, ∀ gs, read 0 false [] (Text.bare (item a) ++ gs) =
      (read 0 false [] gs).withPiece (piece a)) (gs : List Glyph) :
    read 0 false [] (Text.bare (as.flatMap item) ++ gs) =
      ⟨as.map piece ++ (read 0 false [] gs).pieces, (read 0 false [] gs).behind⟩ := by
  induction as with
  | nil => rfl
  | cons a as ih =>
      rw [List.flatMap_cons, Text.bare_append, List.append_assoc, hitem a (by simp),
        ih fun b hb => hitem b (List.mem_cons_of_mem _ hb)]
      rfl

end ClassDiagram.Declaration
