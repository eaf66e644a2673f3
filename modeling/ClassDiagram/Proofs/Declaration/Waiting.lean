import ClassDiagram.Proofs.Declaration.Leftover

/-!
# Text that waits for a block

The search for blocks keeps the text since the last block, which goes into the next one.
When that text changes so that blocks keep their names behind it (`SameName`), all children
that are found afterwards keep theirs (`children_replace`). Inside braces every change is of
that kind, because a name stands in front of the first brace. Outside of braces no more
than blanks wait behind a header that stands clear of literals and stray braces
(`idle_nested`).
-/

namespace ClassDiagram.Declaration

/-! ## Blocks of the same names -/

/-- Behind the second text a block declares what it declares behind the first one. -/
def SameName (s t : Text) : Prop :=
  ∀ u name, declaredName (Text.trim (s ++ u)) = .ok name →
    declaredName (Text.trim (t ++ u)) = .ok name

/-- The second block declares what the first one declares. -/
def Renews (b c : Text) : Prop := ∀ name, declaredName b = .ok name → declaredName c = .ok name

namespace SameName

variable {s t : Text}

theorem refl (s : Text) : SameName s s := fun _ _ h => h

theorem append (h : SameName s t) (u : Text) : SameName (s ++ u) (t ++ u) := by
  intro v name hname
  rw [List.append_assoc] at hname ⊢
  exact h (u ++ v) name hname

/-- The name of a block stands in front of its first brace. -/
theorem of_brace (s u v : Text) : SameName (s ++ '{' :: u) (s ++ '{' :: v) := by
  have hfirst {front : Text} (hfront : ∀ c ∈ front, (c != '{') = true) (x y w : Text) {name : Text}
      (h : declaredName (Text.trim (front ++ '{' :: x ++ w)) = .ok name) :
      declaredName (Text.trim (front ++ '{' :: y ++ w)) = .ok name := by
    have hheader (z : Text) : (Text.trim (front ++ '{' :: z ++ w)).takeWhile (· != '{') =
        Text.trimStart front := by
      have htrim := Text.trim_around (s := ['{']) rfl rfl (by simp) front (z ++ w)
      rw [List.append_assoc, List.cons_append]
      apply (congrArg (List.takeWhile _) htrim).trans
      refine Text.takeWhile_stretch (fun c hc => ?_) rfl
      exact hfront c ((List.dropWhile_sublist _).mem hc)
    rw [declaredName, hheader] at h ⊢
    exact h
  intro w name hname
  rcases Text.stretch_or_split (· != '{') s with hs | ⟨front, c, rest, rfl, hfront, hc⟩
  · exact hfirst hs u v w hname
  · cases show c = '{' by simpa using hc
    have hassoc (x : Text) :
        front ++ '{' :: rest ++ '{' :: x = front ++ '{' :: (rest ++ '{' :: x) := by
      simp
    rw [hassoc] at hname ⊢
    exact hfirst hfront (rest ++ '{' :: u) (rest ++ '{' :: v) w hname

/-- The search for blocks, with the one text or the other in front. -/
theorem forall₂_blocksFrom (h : SameName s t) (depth : Nat) (gs : List Glyph) :
    List.Forall₂ Renews ((blocksFrom depth s.reverse gs).map Text.trim)
      ((blocksFrom depth t.reverse gs).map Text.trim) := by
  induction gs generalizing depth s t with
  | nil => exact .nil
  | cons g gs ih =>
      rw [blocksFrom_cons, blocksFrom_cons]
      rcases blockStep_cases depth g with hblock | hstatement | ⟨after, hother, -⟩
      · rw [hblock, hblock]
        refine .cons (fun name hname => ?_) (ih (.refl []) 0)
        rw [List.reverse_cons, List.reverse_reverse] at hname ⊢
        have hlast := h [g.char] name
        exact hlast hname
      · rw [hstatement, hstatement]
        exact ih (.refl []) 0
      · rw [hother, hother]
        have hrest := ih (h.append [g.char]) after
        rw [List.reverse_append, List.reverse_append] at hrest
        exact hrest

end SameName

theorem mapM_child_renewed {parent : String} {bs cs : List Text} (h : List.Forall₂ Renews bs cs)
    {files : List SourceFile} (hfiles : bs.mapM (child parent) = .ok files) :
    ∃ found, cs.mapM (child parent) = .ok found ∧
      found.map SourceFile.name = files.map SourceFile.name := by
  simp only [mapM_child_eq_ok_iff] at hfiles ⊢
  induction h generalizing files with
  | nil => exact ⟨files, hfiles, rfl⟩
  | cons hrenews _ ih =>
      obtain ⟨file, rest, hfile, hrest, rfl⟩ := List.forall₂_cons_left_iff.mp hfiles
      obtain ⟨name, hname, rfl⟩ := child_eq_ok_iff.mp hfile
      obtain ⟨found, hfound, hnames⟩ := ih hrest
      exact ⟨_ :: found, .cons (child_eq_ok_iff.mpr ⟨name, hrenews name hname, rfl⟩) hfound,
        by simp [hnames]⟩

/-- The children keep their names when text without marks is exchanged for other such text
that keeps the names of blocks. -/
theorem children_replace {parent : String} {s x y t : Text} {c : Char} {files : List SourceFile}
    (hs : Quote.after none s = none) (hx : x.Unquoted) (hxrun : ∀ d ∈ x, endsRun d = false)
    (hy : y.Unquoted) (hyrun : ∀ d ∈ y, endsRun d = false) (hc : endsRun c = false)
    (hname : SameName ((pending (0, []) s.glyphs).2.reverse ++ (x ++ [c]))
      ((pending (0, []) s.glyphs).2.reverse ++ (y ++ [c])))
    (h : children parent (s ++ (x ++ c :: t)) = .ok files) :
    ∃ found, children parent (s ++ (y ++ c :: t)) = .ok found ∧
      found.map SourceFile.name = files.map SourceFile.name := by
  have hblocks {z : Text} (hz : z.Unquoted) (hrun : ∀ d ∈ z, endsRun d = false) :
      blocks (s ++ (z ++ c :: t)) = (blocksFrom 0 [] s.glyphs).map Text.trim ++
        (blocksFrom (pending (0, []) s.glyphs).1
          ((pending (0, []) s.glyphs).2.reverse ++ (z ++ [c])).reverse
          (Text.glyphsFrom (Quote.next none c) t)).map Text.trim := by
    have hpassive : ∀ g ∈ Text.bare (z ++ [c]), g.Passive := by
      refine passive_bare fun d hd => ?_
      rcases List.mem_append.mp hd with hd | hd
      · exact hrun d hd
      · rwa [List.mem_singleton.mp hd]
    have hglyphs : (z ++ c :: t).glyphs =
        Text.bare (z ++ [c]) ++ Text.glyphsFrom (Quote.next none c) t := by
      rw [Text.glyphs_unquoted_append hz, Text.bare_append, List.append_assoc]
      rfl
    have hreverse : ((pending (0, []) s.glyphs).2.reverse ++ (z ++ [c])).reverse =
        (z ++ [c]).reverse ++ (pending (0, []) s.glyphs).2 := by
      rw [List.reverse_append, List.reverse_reverse]
    rw [hreverse, blocks, Text.glyphs_append hs, blocksFrom_append (0, []), hglyphs,
      blocksFrom_passive hpassive, List.map_append, Text.chars_bare]
  rw [children, hblocks hx hxrun] at h
  rw [children, hblocks hy hyrun]
  refine mapM_child_renewed ?_ h
  exact List.rel_append (List.forall₂_same.mpr fun _ _ _ hb => hb) (hname.forall₂_blocksFrom _ _)

/-! ## Idle states -/

/-- No more than blanks wait for a block, or the search is inside braces. -/
def Idle (state : Nat × Text) : Prop :=
  if state.1 = 0 then ∀ c ∈ state.2, Text.isBlank c = true else '{' ∈ state.2

theorem pending_inside {depth after : Nat} {seen : Text} {gs : List Glyph}
    (h : Glyph.braces.depth? depth gs = some after) :
    pending (depth + 1, seen) gs = (after + 1, (Glyph.chars gs).reverse ++ seen) := by
  replace h := Brackets.nesting_of_depth? h
  induction h generalizing seen with
  | nil => rfl
  | opening hopen _ ih =>
      rw [Glyph.reverse_chars_cons, pending_cons, blockStep_open (eq_of_beq hopen)]
      exact ih
  | closing _ hclose _ ih =>
      rw [Glyph.reverse_chars_cons, pending_cons, blockStep_close_inside (eq_of_beq hclose)]
      exact ih
  | other hopen hclose _ ih =>
      rw [Glyph.reverse_chars_cons, pending_cons, blockStep_other (beq_eq_false_iff_ne.mp hopen)
        (beq_eq_false_iff_ne.mp hclose) (by omega)]
      exact ih

/-- A nested declaration leaves the search idle. -/
theorem Idle.piece {state : Nat × Text} (h : Idle state) {s : Text}
    (hs : WholePiece s (.nested s)) : Idle (pending state s.glyphs) := by
  obtain ⟨depth, seen⟩ := state
  obtain ⟨hcomplete, -⟩ := hs
  cases depth with
  | succ depth =>
      have hdepth := Brackets.depth?_add hcomplete.braces depth
      rw [Nat.zero_add] at hdepth
      rw [pending_inside hdepth]
      exact List.mem_append_right _ h
  | zero =>
      generalize s.glyphs = gs at hcomplete
      generalize hpiece : Piece.nested s = piece at hcomplete
      cases hcomplete with
      | statement hhead hmark => cases hpiece
      | block hhead hopening hinner hclosing =>
          rw [pending_append, pending_passive hhead, pending_cons, blockStep_open hopening,
            pending_append, pending_inside hinner, pending_cons, blockStep_close_block hclosing]
          exact List.forall_mem_nil _

/-- So do all nested declarations among complete pieces, and they leave no literal open. -/
theorem Pieces.idle {state : Nat × Text} (h : Idle state) {s : Text} {pieces : List Piece}
    (hs : Pieces s pieces) :
    Quote.after none (pieces.filterMap Piece.nested?).flatten = none ∧
      Idle (pending state (Text.glyphs (pieces.filterMap Piece.nested?).flatten)) := by
  induction hs generalizing state with
  | nil => exact ⟨rfl, h⟩
  | @cons s t piece pieces hpiece _ ih =>
      cases piece with
      | member text => exact ih h
      | nested text =>
          have htext : text = s := hpiece.text_eq
          subst htext
          obtain ⟨hunquoted, hidle⟩ := ih (h.piece hpiece)
          simp only [List.filterMap_cons, Piece.nested?, List.flatten_cons]
          rw [Quote.after_append, hpiece.unquoted, Text.glyphs_append hpiece.unquoted,
            pending_append]
          exact ⟨hunquoted, hidle⟩

/-- Inside braces the brace that was opened first is waiting. -/
theorem brace_mem_pending {state : Nat × Text} (h : 0 < state.1 → '{' ∈ state.2)
    {gs : List Glyph} (hdepth : 0 < (pending state gs).1) : '{' ∈ (pending state gs).2 := by
  induction gs generalizing state with
  | nil => exact h hdepth
  | cons g gs ih =>
      rw [pending_cons] at hdepth ⊢
      refine ih (fun hinside => ?_) hdepth
      obtain ⟨depth, seen⟩ := state
      rcases blockStep_cases depth g with hblock | hstatement | ⟨after, hother, hopen⟩
      · rw [hblock] at hinside
        exact absurd hinside (by simp)
      · rw [hstatement] at hinside
        exact absurd hinside (by simp)
      · rw [hother] at hinside ⊢
        rcases hopen hinside with hbefore | hbrace
        · exact List.mem_cons_of_mem _ (h hbefore)
        · exact List.mem_cons.mpr (.inl (Glyph.char_of_role_openBrace hbrace).symm)

namespace Header

/-- A header clear of what stands in front of it: no literal is open there or at the brace
of the header, and no brace is closed there that was not opened. -/
structure Clear (header : Header) : Prop where
  lead : Quote.after none header.lead = none
  brace : Quote.after none (header.before ++ header.run) = none
  braces : ∀ n ≤ header.lead.glyphs.length,
    (header.lead.glyphs.take n).countP (·.role = .closeBrace) ≤
      (header.lead.glyphs.take n).countP (·.role = .openBrace)

instance (header : Header) : Decidable header.Clear :=
  decidable_of_iff (Quote.after none header.lead = none ∧
      Quote.after none (header.before ++ header.run) = none ∧
      ∀ n ≤ header.lead.glyphs.length,
        (header.lead.glyphs.take n).countP (·.role = .closeBrace) ≤
          (header.lead.glyphs.take n).countP (·.role = .openBrace))
    ⟨fun ⟨hlead, hbrace, hbraces⟩ => ⟨hlead, hbrace, hbraces⟩,
      fun h => ⟨h.lead, h.brace, h.braces⟩⟩

variable {t name : Text} {header : Header} (hlocate : locate? t name = some header)
  (hclear : header.Clear)

include hlocate hclear

theorem idle_lead : Idle (pending (0, []) header.lead.glyphs) := by
  obtain ⟨after, hdepth⟩ : ∃ after, Glyph.braces.depth? 0 header.lead.glyphs = some after :=
    ⟨_, depth?_of_le (by simpa using hclear.braces)⟩
  have hafter : (pending (0, []) header.lead.glyphs).1 = after := pending_depth hdepth
  cases after with
  | zero =>
      rw [Idle, if_pos hafter]
      exact (sealed_lead hlocate hclear.lead hdepth).blank
  | succ after =>
      rw [Idle, if_neg (by omega)]
      exact brace_mem_pending (fun hinside => absurd hinside (by simp)) (by omega)

/-- The search is idle in front of each nested declaration of the body. -/
theorem idle_nested {s : Text} {pieces : List Piece} (hs : Pieces s pieces) :
    Quote.after none (header.lead ++ (pieces.filterMap Piece.nested?).flatten) = none ∧
      Idle (pending (0, [])
        (Text.glyphs (header.lead ++ (pieces.filterMap Piece.nested?).flatten))) := by
  obtain ⟨hunquoted, hidle⟩ := hs.idle (idle_lead hlocate hclear)
  rw [Quote.after_append, hclear.lead, Text.glyphs_append hclear.lead, pending_append]
  exact ⟨hunquoted, hidle⟩

end Header

end ClassDiagram.Declaration
