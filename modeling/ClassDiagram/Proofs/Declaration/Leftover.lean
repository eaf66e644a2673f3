import ClassDiagram.Proofs.Declaration.Children
import ClassDiagram.Proofs.Declaration.Front
import ClassDiagram.Proofs.Declaration.Piece
import ClassDiagram.Proofs.Literal.Span
import ClassDiagram.Proofs.Text.Byte

/-!
# The declarations around and inside a type

The text of all declarations beside a type is put together from what stands before its
header, the nested declarations of its body and what stands behind it. The search for
blocks goes over that text from the start, so it finds the same blocks as in the parts
only if each part leaves it as it was: no literal and no brace is open behind the part,
and no more than blanks wait for a block (`Sealed`). Complete blocks do that, and so does
the text before a header that neither stands in a literal nor inside braces.
-/

namespace ClassDiagram

namespace Declaration

/-! ## The search for blocks, step by step -/

/-- The search after one more glyph, given the depth and the text since the last block or
statement: both of them anew, and the block that the glyph completes. -/
def blockStep (state : Nat × Text) (g : Glyph) : (Nat × Text) × Option Text :=
  match g.role, state.1 with
  | .openBrace, d => ((d + 1, g.char :: state.2), none)
  | .closeBrace, 1 => ((0, []), some (g.char :: state.2).reverse)
  | .closeBrace, d + 2 => ((d + 1, g.char :: state.2), none)
  | .semicolon, 0 => ((0, []), none)
  | _, _ => ((state.1, g.char :: state.2), none)

theorem blocksFrom_cons (depth : Nat) (seen : Text) (g : Glyph) (gs : List Glyph) :
    blocksFrom depth seen (g :: gs) =
      (blockStep (depth, seen) g).2.toList ++
        blocksFrom (blockStep (depth, seen) g).1.1 (blockStep (depth, seen) g).1.2 gs := by
  cases hrole : g.role with
  | openBrace => simp only [blocksFrom, blockStep, hrole]; rfl
  | closeBrace =>
      obtain _ | _ | depth := depth <;> simp only [blocksFrom, blockStep, hrole] <;> rfl
  | semicolon => cases depth <;> simp only [blocksFrom, blockStep, hrole] <;> rfl
  | openParen => simp only [blocksFrom, blockStep, hrole]; rfl
  | closeParen => simp only [blocksFrom, blockStep, hrole]; rfl
  | plain => simp only [blocksFrom, blockStep, hrole]; rfl

/-- A glyph completes a block, or it ends a statement, or it is only remembered. -/
theorem blockStep_cases (depth : Nat) (g : Glyph) :
    (∀ seen, blockStep (depth, seen) g = ((0, []), some (g.char :: seen).reverse)) ∨
      (∀ seen, blockStep (depth, seen) g = ((0, []), none)) ∨
      ∃ after, (∀ seen, blockStep (depth, seen) g = ((after, g.char :: seen), none)) ∧
        (0 < after → 0 < depth ∨ g.role = .openBrace) := by
  cases hrole : g.role with
  | openBrace =>
      refine .inr (.inr ⟨depth + 1, fun seen => ?_, fun _ => .inr rfl⟩)
      simp only [blockStep, hrole]
  | closeBrace =>
      obtain _ | _ | depth := depth
      · exact .inr (.inr ⟨0, fun seen => by simp only [blockStep, hrole], by omega⟩)
      · exact .inl fun seen => by simp only [blockStep, hrole]
      · exact .inr (.inr ⟨depth + 1, fun seen => by simp only [blockStep, hrole], by omega⟩)
  | semicolon =>
      obtain _ | depth := depth
      · exact .inr (.inl fun seen => by simp only [blockStep, hrole])
      · exact .inr (.inr ⟨depth + 1, fun seen => by simp only [blockStep, hrole], by omega⟩)
  | openParen => exact .inr (.inr ⟨depth, fun seen => by simp only [blockStep, hrole], .inl⟩)
  | closeParen => exact .inr (.inr ⟨depth, fun seen => by simp only [blockStep, hrole], .inl⟩)
  | plain => exact .inr (.inr ⟨depth, fun seen => by simp only [blockStep, hrole], .inl⟩)

/-- The state of the search behind glyphs. -/
def pending (state : Nat × Text) (gs : List Glyph) : Nat × Text :=
  gs.foldl (fun state g => (blockStep state g).1) state

theorem pending_cons (state : Nat × Text) (g : Glyph) (gs : List Glyph) :
    pending state (g :: gs) = pending (blockStep state g).1 gs := rfl

theorem pending_append (state : Nat × Text) (gs hs : List Glyph) :
    pending state (gs ++ hs) = pending (pending state gs) hs := List.foldl_append ..

theorem blocksFrom_append (state : Nat × Text) (gs hs : List Glyph) :
    blocksFrom state.1 state.2 (gs ++ hs) =
      blocksFrom state.1 state.2 gs ++
        blocksFrom (pending state gs).1 (pending state gs).2 hs := by
  induction gs generalizing state with
  | nil => rfl
  | cons g gs ih =>
      rw [List.cons_append, blocksFrom_cons, blocksFrom_cons, ih, List.append_assoc]
      rfl

section Step

variable {depth after : Nat} {seen : Text} {g : Glyph} {hs gs : List Glyph}

theorem blockStep_open (h : g.role = .openBrace) :
    blockStep (depth, seen) g = ((depth + 1, g.char :: seen), none) := by
  simp only [blockStep, h]

theorem blockStep_close_block (h : g.role = .closeBrace) :
    blockStep (1, seen) g = ((0, []), some (g.char :: seen).reverse) := by
  simp only [blockStep, h]

theorem blockStep_close_inside (h : g.role = .closeBrace) :
    blockStep (depth + 2, seen) g = ((depth + 1, g.char :: seen), none) := by
  simp only [blockStep, h]

theorem blockStep_semicolon (h : g.role = .semicolon) :
    blockStep (0, seen) g = ((0, []), none) := by
  simp only [blockStep, h]

theorem blockStep_other (hopen : g.role ≠ .openBrace) (hclose : g.role ≠ .closeBrace)
    (hsemicolon : depth = 0 → g.role ≠ .semicolon) :
    blockStep (depth, seen) g = ((depth, g.char :: seen), none) := by
  rw [blockStep]
  split
  · exact absurd ‹_› hopen
  · exact absurd ‹_› hclose
  · exact absurd ‹_› hclose
  · rename_i hrole hdepth
    exact absurd hrole (hsemicolon hdepth)
  · rfl

theorem pending_passive (h : ∀ g ∈ gs, g.Passive) :
    pending (0, seen) gs = (0, (Glyph.chars gs).reverse ++ seen) := by
  induction gs generalizing seen with
  | nil => rfl
  | cons g gs ih =>
      obtain ⟨⟨hopen, hclose, hsemicolon⟩, hrest⟩ := List.forall_mem_cons.mp h
      rw [pending_cons, blockStep_other hopen hclose fun _ => hsemicolon, ih hrest]
      simp

theorem blocksFrom_passive (h : ∀ g ∈ hs, g.Passive) :
    blocksFrom depth seen (hs ++ gs) = blocksFrom depth ((Glyph.chars hs).reverse ++ seen) gs := by
  induction hs generalizing seen with
  | nil => rfl
  | cons g hs ih =>
      obtain ⟨⟨hopen, hclose, hsemicolon⟩, hrest⟩ := List.forall_mem_cons.mp h
      rw [List.cons_append, blocksFrom_cons, blockStep_other hopen hclose fun _ => hsemicolon]
      dsimp only [Option.toList_none, List.nil_append]
      rw [ih hrest]
      simp

/-- Inside a block the search only counts braces. -/
theorem blocksFrom_inside (h : Glyph.braces.depth? depth hs = some after) :
    blocksFrom (depth + 1) seen (hs ++ gs) =
      blocksFrom (after + 1) ((Glyph.chars hs).reverse ++ seen) gs := by
  replace h := Brackets.nesting_of_depth? h
  induction h generalizing seen with
  | nil => rfl
  | opening hopen _ ih =>
      rw [List.cons_append, Glyph.reverse_chars_cons, blocksFrom_cons,
        blockStep_open (eq_of_beq hopen)]
      exact ih
  | closing _ hclose _ ih =>
      rw [List.cons_append, Glyph.reverse_chars_cons, blocksFrom_cons,
        blockStep_close_inside (eq_of_beq hclose)]
      exact ih
  | other hopen hclose _ ih =>
      rw [List.cons_append, Glyph.reverse_chars_cons, blocksFrom_cons,
        blockStep_other (beq_eq_false_iff_ne.mp hopen) (beq_eq_false_iff_ne.mp hclose) (by omega)]
      exact ih

/-- The depth behind glyphs that close nothing too much. -/
theorem pending_depth (h : Glyph.braces.depth? depth gs = some after) :
    (pending (depth, seen) gs).1 = after := by
  replace h := Brackets.nesting_of_depth? h
  induction h generalizing seen with
  | nil => rfl
  | opening hopen _ ih =>
      rw [pending_cons, blockStep_open (eq_of_beq hopen)]
      exact ih
  | @closing depth _ _ _ hclose _ ih =>
      rw [pending_cons]
      cases depth with
      | zero =>
          rw [blockStep_close_block (eq_of_beq hclose)]
          exact ih
      | succ depth =>
          rw [blockStep_close_inside (eq_of_beq hclose)]
          exact ih
  | @other depth g _ hopen hclose _ ih =>
      rw [pending_cons]
      by_cases hsemicolon : depth = 0 ∧ g.role = .semicolon
      · obtain ⟨rfl, hrole⟩ := hsemicolon
        rw [blockStep_semicolon hrole]
        exact ih
      · rw [blockStep_other (beq_eq_false_iff_ne.mp hopen) (beq_eq_false_iff_ne.mp hclose)
          fun hdepth hrole => hsemicolon ⟨hdepth, hrole⟩]
        exact ih

end Step

/-- Blanks that wait for a block go when the block is trimmed. -/
theorem trim_blocksFrom_blank {blanks : Text} (hblanks : ∀ c ∈ blanks, Text.isBlank c = true)
    (depth : Nat) (seen : Text) (gs : List Glyph) :
    (blocksFrom depth (seen ++ blanks) gs).map Text.trim =
      (blocksFrom depth seen gs).map Text.trim := by
  induction gs generalizing depth seen with
  | nil => rfl
  | cons g gs ih =>
      rw [blocksFrom_cons, blocksFrom_cons]
      rcases blockStep_cases depth g with hblock | hstatement | ⟨after, hother, -⟩
      · have htrim : Text.trim (g.char :: (seen ++ blanks)).reverse =
            Text.trim (g.char :: seen).reverse := by
          rw [← List.cons_append, List.reverse_append]
          exact Text.trim_append_of_blank (by simpa using hblanks) _
        rw [hblock, hblock]
        simp only [Option.toList_some, List.singleton_append, List.map_cons, htrim]
      · rw [hstatement, hstatement]
      · rw [hother, hother]
        exact ih after (g.char :: seen)

/-! ## Sealed texts -/

/-- A text behind which no literal and no brace is open and only blanks wait for a
block. -/
structure Sealed (s : Text) : Prop where
  unquoted : Quote.after none s = none
  depth : (pending (0, []) s.glyphs).1 = 0
  blank : ∀ c ∈ (pending (0, []) s.glyphs).2, Text.isBlank c = true

/-- Behind a sealed text the search begins anew. -/
theorem Sealed.blocks_append {s : Text} (hs : Sealed s) (t : Text) :
    blocks (s ++ t) = blocks s ++ blocks t := by
  have hrest := trim_blocksFrom_blank hs.blank 0 [] t.glyphs
  rw [List.nil_append] at hrest
  rw [blocks, Text.glyphs_append hs.unquoted, blocksFrom_append (0, []), List.map_append, hs.depth,
    hrest, blocks, blocks]

/-- A block is found as a whole. -/
theorem blocksFrom_block {head inner gs : List Glyph} {opening closing : Glyph}
    (hhead : ∀ g ∈ head, g.Passive) (hopening : opening.role = .openBrace)
    (hinner : Glyph.braces.depth? 0 inner = some 0) (hclosing : closing.role = .closeBrace) :
    blocksFrom 0 [] (head ++ opening :: (inner ++ [closing]) ++ gs) =
      Glyph.chars (head ++ opening :: (inner ++ [closing])) :: blocksFrom 0 [] gs := by
  rw [List.append_assoc, blocksFrom_passive hhead, List.cons_append, List.append_assoc,
    blocksFrom_cons, blockStep_open hopening]
  dsimp only [Option.toList_none, List.nil_append]
  rw [blocksFrom_inside hinner, List.singleton_append, blocksFrom_cons,
    blockStep_close_block hclosing]
  simp

/-- A whole block in front of a text is the first of its blocks. -/
theorem WholePiece.blocks_append {s d : Text} (hs : WholePiece s (.nested d)) (t : Text) :
    blocks (s ++ t) = Text.trim d :: blocks t := by
  have htext : d = s := hs.text_eq
  obtain ⟨hcomplete, hunquoted⟩ := hs
  have hchars := Text.chars_glyphs s
  rw [blocks, Text.glyphs_append hunquoted, blocks]
  generalize s.glyphs = gs at hcomplete hchars
  generalize hpiece : Piece.nested d = piece at hcomplete
  cases hcomplete with
  | statement hhead hmark => cases hpiece
  | block hhead hopening hinner hclosing =>
      rw [blocksFrom_block hhead hopening hinner hclosing, hchars, htext, List.map_cons]

/-- The nested declarations among complete pieces are found as blocks, each trimmed. -/
theorem Pieces.blocks_append {s : Text} {pieces : List Piece} (hs : Pieces s pieces) (t : Text) :
    blocks ((pieces.filterMap Piece.nested?).flatten ++ t) =
      (pieces.filterMap Piece.nested?).map Text.trim ++ blocks t := by
  induction hs with
  | nil => rfl
  | @cons s' t' piece pieces hpiece _ ih =>
      cases piece with
      | member text => exact ih
      | nested text =>
          have htext : text = s' := hpiece.text_eq
          subst htext
          simp only [List.filterMap_cons, Piece.nested?, List.flatten_cons, List.append_assoc,
            List.map_cons, List.cons_append, hpiece.blocks_append, ih]

/-! ## The text in front of a header -/

/-- Braces are balanced: as many are closed as opened, and never more are closed than were
opened before. -/
def Balanced (gs : List Glyph) : Prop :=
  gs.countP (·.role = .closeBrace) = gs.countP (·.role = .openBrace) ∧
    ∀ n ≤ gs.length,
      (gs.take n).countP (·.role = .closeBrace) ≤ (gs.take n).countP (·.role = .openBrace)

instance (gs : List Glyph) : Decidable (Balanced gs) := inferInstanceAs (Decidable (_ ∧ _))

theorem depth?_of_le {depth : Nat} {gs : List Glyph}
    (h : ∀ n ≤ gs.length, (gs.take n).countP (·.role = .closeBrace) ≤
      depth + (gs.take n).countP (·.role = .openBrace)) :
    Glyph.braces.depth? depth gs =
      some (depth + gs.countP (·.role = .openBrace) - gs.countP (·.role = .closeBrace)) := by
  induction gs generalizing depth with
  | nil => rfl
  | cons g gs ih =>
      have hstep (n : Nat) (hn : n ≤ gs.length) := h (n + 1) (by rw [List.length_cons]; omega)
      simp only [List.take_succ_cons, List.countP_cons, decide_eq_true_eq] at hstep
      by_cases hopen : g.role = .openBrace
      · have hrest (n : Nat) (hn : n ≤ gs.length) : (gs.take n).countP (·.role = .closeBrace) ≤
            depth + 1 + (gs.take n).countP (·.role = .openBrace) := by
          have := hstep n hn
          simp only [hopen, reduceCtorEq, if_false, if_true] at this
          omega
        rw [Glyph.braces_open hopen, ih hrest]
        simp only [List.countP_cons, hopen, reduceCtorEq, decide_false, decide_true, if_true,
          Bool.false_eq_true, if_false, Option.some.injEq]
        omega
      · by_cases hclose : g.role = .closeBrace
        · simp only [hclose, reduceCtorEq, if_false, if_true] at hstep
          cases depth with
          | zero =>
              have := hstep 0 (Nat.zero_le _)
              simp at this
          | succ depth =>
              have hrest (n : Nat) (hn : n ≤ gs.length) :
                  (gs.take n).countP (·.role = .closeBrace) ≤
                    depth + (gs.take n).countP (·.role = .openBrace) := by
                have := hstep n hn
                omega
              rw [Glyph.braces_close hclose, ih hrest]
              simp only [List.countP_cons, hclose, reduceCtorEq, decide_false, decide_true, if_true,
                Bool.false_eq_true, if_false, Option.some.injEq]
              omega
        · simp only [hopen, hclose, if_false, Nat.add_zero] at hstep
          rw [Glyph.braces_other hopen hclose, ih hstep]
          simp [hopen, hclose]

theorem Balanced.braces {gs : List Glyph} (h : Balanced gs) :
    Glyph.braces.depth? 0 gs = some 0 := by
  rw [depth?_of_le (by simpa using h.2), h.1]
  simp

/-- What stands before a header ends in the mark of the run before. -/
theorem before_of_firstRun? {mention : Mention} {t : Text} {header : Header}
    (h : firstRun? mention t = some header) :
    header.before = [] ∨ ∃ s c, header.before = s ++ [c] ∧ endsRun c = true := by
  fun_induction firstRun? mention t generalizing header with
  | case1 t run behind hlast =>
      cases h
      exact .inl rfl
  | case2 => cases h
  | case3 t _ mark rest hmark ih =>
      obtain ⟨found, hfound, rfl⟩ := Option.map_eq_some_iff.mp h
      refine .inr ?_
      rcases ih hfound with hnil | ⟨s, c, hs, hc⟩
      · refine ⟨_, mark, by rw [hnil], ?_⟩
        have hhead := List.head_dropWhile_not (fun c => !endsRun c) (l := t) (by simp [hmark])
        simpa [hmark] using hhead
      · exact ⟨_, c, by rw [hs, ← List.cons_append, ← List.append_assoc], hc⟩

theorem Header.before_of_locate? {t name : Text} {header : Header}
    (h : Header.locate? t name = some header) :
    header.before = [] ∨ ∃ s c, header.before = s ++ [c] ∧ endsRun c = true := by
  rw [Header.locate?, Option.or_eq_some_iff] at h
  rcases h with h | ⟨-, h⟩
  · exact before_of_firstRun? h
  · exact before_of_firstRun? h

theorem ofChar?_of_endsRun {c : Char} (h : endsRun c = true) : Quote.ofChar? c = none := by
  simp only [endsRun, Bool.or_eq_true, beq_iff_eq] at h
  obtain (rfl | rfl) | rfl := h <;> rfl

/-- Glyphs that end no run are passive. -/
theorem passive_of_endsRun {c : Char} (h : endsRun c = false) (quoted : Bool) :
    Glyph.Passive ⟨c, quoted⟩ := by
  cases quoted with
  | true => exact ⟨Role.noConfusion, Role.noConfusion, Role.noConfusion⟩
  | false =>
      simp only [endsRun, Bool.or_eq_false_iff] at h
      obtain ⟨⟨hsemicolon, hopen⟩, hclose⟩ := h
      rw [Glyph.Passive, Glyph.role_bare, Role.ofChar, hopen, hclose, hsemicolon]
      simp only [Bool.false_eq_true, if_false]
      split
      · decide
      · split
        · decide
        · decide

theorem passive_bare {t : Text} (ht : ∀ c ∈ t, endsRun c = false) :
    ∀ g ∈ Text.bare t, g.Passive := by
  simp only [Text.bare, List.mem_map]
  rintro g ⟨c, hc, rfl⟩
  exact passive_of_endsRun (ht c hc) false

/-- Nothing waits for a block behind a mark of a run that leaves nothing open. -/
theorem pending_of_mark {s : Text} {c : Char} (hc : endsRun c = true)
    (hunquoted : Quote.after none (s ++ [c]) = none)
    (hdepth : Glyph.braces.depth? 0 (s ++ [c]).glyphs = some 0) :
    pending (0, []) (s ++ [c]).glyphs = (0, []) := by
  have hquote := ofChar?_of_endsRun hc
  have hs : Quote.after none s = none := by
    rw [Quote.after_append] at hunquoted
    cases hopen : Quote.after none s with
    | none => rfl
    | some quote => simp [hopen, Quote.next, hquote] at hunquoted
  have hglyphs : (s ++ [c]).glyphs = s.glyphs ++ [⟨c, false⟩] := Text.glyphs_append hs [c]
  rw [hglyphs] at hdepth ⊢
  rw [Brackets.depth?_append, Option.bind_eq_some_iff] at hdepth
  obtain ⟨depth, hfront, hlast⟩ := hdepth
  obtain ⟨seen, hpending⟩ : ∃ seen, pending (0, []) s.glyphs = (depth, seen) :=
    ⟨_, Prod.ext (pending_depth hfront) rfl⟩
  rw [pending_append, hpending, pending_cons]
  simp only [endsRun, Bool.or_eq_true, beq_iff_eq] at hc
  obtain (rfl | rfl) | rfl := hc
  · cases hlast
    rw [blockStep_semicolon rfl]
    rfl
  · cases hlast
  · cases depth with
    | zero => cases hlast
    | succ depth =>
        cases hlast
        rw [blockStep_close_block rfl]
        rfl

namespace Header

/-- Behind an unquoted brace the body is marked as if it stood alone. -/
theorem body_of_unquoted {header : Header}
    (hunquoted : Quote.after none (header.before ++ header.run) = none) :
    header.body = Body.read 0 false [] header.behind.glyphs := by
  have hopen : Quote.after none (header.before ++ (header.run ++ ['{'])) = none := by
    rw [← List.append_assoc, Quote.after_append, hunquoted]
    rfl
  rw [body_eq, hopen]
  rfl

/-- A body behind an unquoted brace falls into complete pieces and a remainder of member
text. -/
theorem exists_body_pieces {header : Header}
    (hunquoted : Quote.after none (header.before ++ header.run) = none) :
    ∃ s u pieces last, header.behind = s ++ u ∧ Pieces s pieces ∧
      Body.read 0 false [] u.glyphs = ⟨[.member last], header.body.behind⟩ ∧
      header.body.pieces = pieces ++ [.member last] := by
  obtain ⟨s, u, pieces, hbehind, hs, hend⟩ := exists_pieces header.behind
  obtain ⟨last, behind, hlast⟩ : ∃ last behind,
      Body.read 0 false [] u.glyphs = ⟨[.member last], behind⟩ := by
    rcases hend with ⟨head, rest, -, hu⟩ | ⟨text, hu⟩
    · exact ⟨head, _, hu⟩
    · exact ⟨text, _, hu⟩
  have hbody : header.body = ⟨pieces ++ [.member last], behind⟩ := by
    rw [body_of_unquoted hunquoted, hbehind, hs.read_append, hlast]
  exact ⟨s, u, pieces, last, hbehind, hs, by rw [hlast, hbody], by rw [hbody]⟩

/-- The text of the declarations beside a type around one of the nested ones. -/
theorem leftover_of_nested {header : Header} {before after : List Text} {d : Text}
    (h : header.body.nested = before ++ d :: after) :
    header.leftover = header.lead ++ before.flatten ++
      (d ++ (after.flatten ++ (header.body.behind.map Glyph.chars).getD [])) := by
  rw [leftover, h]
  simp

variable {t name : Text} {header : Header} (hlocate : locate? t name = some header)

include hlocate

/-- The text in front of a header is sealed when no literal and no brace is open there. -/
theorem sealed_lead (hunquoted : Quote.after none header.lead = none)
    (hdepth : Glyph.braces.depth? 0 header.lead.glyphs = some 0) : Sealed header.lead := by
  have hblanks : ∀ c ∈ header.run.takeWhile Text.isBlank, Text.isBlank c = true :=
    List.all_eq_true.mp List.all_takeWhile
  have hopen : Quote.after none header.before = none := by
    rwa [lead, Quote.after_append,
      Quote.after_unquoted fun c hc => Text.ofChar?_of_isBlank (hblanks c hc)]
      at hunquoted
  have hglyphs : header.lead.glyphs =
      header.before.glyphs ++ Text.glyphs (header.run.takeWhile Text.isBlank) := by
    rw [lead, Text.glyphs_append hopen]
  have hpassive : ∀ g ∈ Text.glyphs (header.run.takeWhile Text.isBlank), g.Passive := by
    rw [Text.glyphs_unquoted fun c hc => Text.ofChar?_of_isBlank (hblanks c hc)]
    exact passive_bare fun c hc => endsRun_of_isBlank (hblanks c hc)
  rw [hglyphs, Brackets.depth?_append, Option.bind_eq_some_iff] at hdepth
  obtain ⟨depth, hbefore, hrest⟩ := hdepth
  rw [Glyph.braces_passive hpassive] at hrest
  cases hrest
  have hpending : pending (0, []) header.before.glyphs = (0, []) := by
    rcases before_of_locate? hlocate with hnil | ⟨s, c, hs, hc⟩
    · rw [hnil]
      rfl
    · rw [hs] at hopen hbefore ⊢
      exact pending_of_mark hc hopen hbefore
  have hlead : pending (0, []) header.lead.glyphs =
      (0, (header.run.takeWhile Text.isBlank).reverse) := by
    rw [hglyphs, pending_append, hpending, pending_passive hpassive, Text.chars_glyphs,
      List.append_nil]
  refine ⟨hunquoted, by rw [hlead], fun c hc => ?_⟩
  rw [hlead, List.mem_reverse] at hc
  exact hblanks c hc

/-- The blocks beside a type are those in front of it, the nested declarations of its body,
and those behind it. -/
theorem blocks_leftover (hlead : Quote.after none header.lead = none)
    (hbrace : Quote.after none (header.before ++ header.run) = none)
    (hbalanced : Balanced header.lead.glyphs) :
    blocks header.leftover = blocks header.lead ++
      (header.body.nested.map Text.trim ++
        blocks ((header.body.behind.map Glyph.chars).getD [])) := by
  obtain ⟨s, u, pieces, last, -, hs, -, hpieces⟩ := exists_body_pieces hbrace
  have hnested : header.body.nested = pieces.filterMap Piece.nested? := by
    rw [Body.nested, hpieces, List.filterMap_append]
    exact List.append_nil _
  rw [leftover, List.append_assoc,
    (sealed_lead hlocate hlead hbalanced.braces).blocks_append, hnested, hs.blocks_append]

/-- The body of a header is the one behind its brace. -/
theorem atBrace_eq : Body.atBrace t header.brace = header.body := by
  have hsource := source_locate? hlocate
  have hsplit : header.source = (header.before ++ (header.run ++ ['{'])) ++ header.behind := by
    simp [source]
  have hsize : header.brace + 1 = Text.size (header.before ++ (header.run ++ ['{'])) := by
    simp [brace, Nat.add_assoc]
    rfl
  have hcut := Text.splitAtByte?_size (header.before ++ (header.run ++ ['{'])) header.behind
  rw [← hsize, ← hsplit, hsource] at hcut
  rw [Body.atBrace, hcut, body, hsource]
  simp [Nat.add_assoc]

/-! ## The children around and inside a type -/

/-- Let the text in front of a header have balanced braces, and let no literal be open
where the header starts or where its brace stands. Then the declarations beside the type
are those of the text in front, the nested ones of the body, one for each piece, and those
of the text behind the body. So are the children, and the first fault among them decides. -/
theorem children_leftover (hstart : Span.anyHolds t.spans header.start = false)
    (hend : ∀ span ∈ t.spans, span.stop ≠ header.start)
    (hbrace : Span.anyHolds t.spans header.brace = false)
    (hbalanced : Balanced header.lead.glyphs) (parent : String) :
    let body := Body.atBrace t header.brace
    let behind := (body.behind.map Glyph.chars).getD []
    header.leftover = header.lead ++ body.nested.flatten ++ behind ∧
    blocks header.leftover = blocks header.lead ++ body.nested.map Text.trim ++ blocks behind ∧
    children parent header.leftover = (do
      let before ← children parent header.lead
      let inside ← body.nested.mapM fun piece => child parent (Text.trim piece)
      let after ← children parent behind
      return before ++ inside ++ after) := by
  have hsource := source_locate? hlocate
  have hlead : Quote.after none header.lead = none := by
    have hrun := List.takeWhile_append_dropWhile (p := Text.isBlank) (l := header.run)
    have hsplit : t =
        header.lead ++ (header.run.dropWhile Text.isBlank ++ '{' :: header.behind) := by
      rw [lead, List.append_assoc, ← List.append_assoc (header.run.takeWhile _), hrun, ← hsource,
        source, List.append_assoc]
    obtain ⟨c, rest, hrest⟩ : ∃ c rest,
        header.run.dropWhile Text.isBlank ++ '{' :: header.behind = c :: rest :=
      List.exists_cons_of_ne_nil (by simp)
    rw [hrest] at hsplit
    rw [hsplit, start] at hstart hend
    exact Text.after_of_spans hstart hend
  have hopen : Quote.after none (header.before ++ header.run) = none := by
    rw [← hsource, source, brace] at hbrace
    exact Text.after_of_not_holds rfl hbrace
  have hblocks := blocks_leftover hlocate hlead hopen hbalanced
  dsimp only
  rw [atBrace_eq hlocate]
  refine ⟨rfl, by rw [hblocks, List.append_assoc], ?_⟩
  rw [children, hblocks, List.mapM_append, List.mapM_append, List.mapM_map]
  simp only [children, bind_assoc, pure_bind, List.append_assoc]
  rfl

end Header

/-- Around and inside of `A` stand an enum, an interface and a class, which are found in
this order. -/
theorem Header.children_leftover_around :
    ∃ header, Header.locate? "enum E{}class A{int i;interface I{}void f(){}}class B{}".toList
        "A".toList = some header ∧
      children "A" header.leftover = .ok [⟨"E", "enum E{}", some "A"⟩,
        ⟨"I", "interface I{}", some "A"⟩, ⟨"B", "class B{}", some "A"⟩] := by
  have hlocate : Header.locate? "enum E{}class A{int i;interface I{}void f(){}}class B{}".toList
      "A".toList = some ⟨"enum E{}".toList, "class A".toList,
        "int i;interface I{}void f(){}\x7dclass B{}".toList⟩ := by
    decide +kernel
  obtain ⟨-, -, hchildren⟩ := Header.children_leftover hlocate (by decide +kernel)
    (by decide +kernel) (by decide +kernel) (by decide +kernel) "A"
  exact ⟨_, hlocate, hchildren.trans (by decide +kernel)⟩

/-- A header may start with the quote that closes a literal, which lies in no literal
itself. The literal is open in front of it, and hides the declarations of the body. -/
theorem Header.children_leftover_closing_quote :
    let t : Text := "';' class A{class B{}}".toList
    ∃ header, Header.locate? t "A".toList = some header ∧
      Span.anyHolds t.spans header.start = false ∧ Span.anyHolds t.spans header.brace = false ∧
      Balanced header.lead.glyphs ∧ children "A" header.leftover = .ok [] ∧
      (do
        let body := Body.atBrace t header.brace
        let before ← children "A" header.lead
        let inside ← body.nested.mapM fun piece => child "A" (Text.trim piece)
        let after ← children "A" ((body.behind.map Glyph.chars).getD [])
        return before ++ inside ++ after) = Except.ok [⟨"B", "class B{}", some "A"⟩] :=
  ⟨⟨"';".toList, "' class A".toList, "class B{}\x7d".toList⟩, by decide +kernel⟩

end Declaration

end ClassDiagram
