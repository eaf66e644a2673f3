import ClassDiagram.Catalogue.File

/-!
# Counting opening braces

No step of reading a file creates an opening brace, and the brace of the header
is given to no child. So the children of a file together hold fewer opening
braces than the file (`braces_children`), and reading the children of children
comes to an end.
-/

namespace ClassDiagram

/-- The number of opening braces of a text. -/
def Text.braces (t : Text) : Nat := t.count '{'

namespace Text

@[simp] theorem braces_nil : braces [] = 0 := rfl

theorem braces_cons (c : Char) (t : Text) :
    braces (c :: t) = braces t + if c == '{' then 1 else 0 := by
  simp [braces, List.count_cons]

@[simp] theorem braces_append (s t : Text) : braces (s ++ t) = braces s + braces t := by
  simp [braces]

@[simp] theorem braces_reverse (t : Text) : braces t.reverse = braces t := by
  simp [braces]

theorem braces_le_of_sublist {s t : Text} (h : s.Sublist t) : braces s ≤ braces t :=
  h.count_le _

theorem braces_trim_le (t : Text) : braces (trim t) ≤ braces t := by
  have h1 : braces (trimStart t) ≤ braces t :=
    braces_le_of_sublist (List.dropWhile_sublist _)
  have h2 : braces (trimEnd (trimStart t)) ≤ braces (trimStart t) := by
    rw [trimEnd, braces_reverse, ← braces_reverse (trimStart t)]
    exact braces_le_of_sublist (List.dropWhile_sublist _)
  exact Nat.le_trans h2 h1

end Text

/-! ## The dense form -/

namespace Source

theorem afterBlock_suffix (t : Text) : afterBlock t <:+ t := by
  fun_induction afterBlock t with
  | case1 t => exact ⟨['*', '/'], rfl⟩
  | case2 c t _ ih => exact ih.trans (List.suffix_cons _ _)
  | case3 => exact List.suffix_refl _

theorem stripComments_sublist (t : Text) : (stripComments t).Sublist t := by
  fun_induction stripComments t with
  | case1 t ih =>
    exact (ih.trans (List.dropWhile_sublist _)).trans
      ((List.sublist_cons_self _ _).trans (List.sublist_cons_self _ _))
  | case2 t ih =>
    exact (ih.trans (afterBlock_suffix t).sublist).trans
      ((List.sublist_cons_self _ _).trans (List.sublist_cons_self _ _))
  | case3 c t _ _ ih => exact ih.cons_cons _
  | case4 => exact List.Sublist.refl _

theorem afterClause?_suffix {keyword t after : Text} {before : Option Char}
    (h : afterClause? keyword before t = some after) : after <:+ t := by
  rw [afterClause?] at h
  split at h
  · simp at h
  · split at h
    · rename_i c rest hp
      split at h
      · split at h
        · rename_i d tail hd
          simp only [Option.some.injEq] at h
          subst h
          rw [Text.dropPrefix?_eq_some_iff.1 hp]
          have hs : d :: tail <:+ rest := hd ▸ List.dropWhile_suffix _
          exact (((List.suffix_cons d tail).trans hs).trans (List.suffix_cons c rest)).trans
            (List.suffix_append _ _)
        · simp at h
      · simp at h
    · simp at h

theorem dropFirstClause_sublist (keyword : Text) (before : Option Char) (t : Text) :
    (dropFirstClause keyword before t).Sublist t := by
  induction t generalizing before with
  | nil => exact List.Sublist.refl _
  | cons c t ih =>
    rw [dropFirstClause]
    split
    · rename_i after h
      exact (afterClause?_suffix h).sublist
    · exact (ih _).cons_cons _

theorem dropClauses_sublist (keyword : Text) (before : Option Char) (t : Text) :
    (dropClauses keyword before t).Sublist t := by
  fun_induction dropClauses keyword before t with
  | case1 => exact List.Sublist.refl _
  | case2 before c t after h ih => exact ih.trans (afterClause?_suffix h).sublist
  | case3 before c t h ih => exact ih.cons_cons _

theorem isBlank_brace : Text.isBlank '{' = false := by decide

theorem braces_collapseBlanks (t : Text) :
    Text.braces (collapseBlanks t) = Text.braces t := by
  induction t with
  | nil => rfl
  | cons c t ih =>
    rw [collapseBlanks, Text.braces_cons]
    split
    · rename_i hc
      have hne : (c == '{') = false := by
        rw [beq_eq_false_iff_ne]
        rintro rfl
        simp [isBlank_brace] at hc
      split
      · simp [ih, hne]
      · simp [Text.braces_cons, ih, hne]
    · rw [Text.braces_cons, ih]

theorem tighten_sublist (tight : Bool) (t : Text) : (tighten tight t).Sublist t := by
  induction t generalizing tight with
  | nil => exact List.Sublist.refl _
  | cons c t ih =>
    rw [tighten]
    split
    · split
      · exact (ih _).trans (List.sublist_cons_self _ _)
      · exact (ih _).cons_cons _
    · exact (ih _).cons_cons _

private theorem append_of_cutLastEquals? {t lead tail : Text}
    (h : cutLastEquals? t = some (lead, tail)) : t = lead ++ '=' :: tail := by
  induction t generalizing lead tail with
  | nil => simp [cutLastEquals?] at h
  | cons c t ih =>
    rw [cutLastEquals?] at h
    split at h
    · rename_i l r hc
      simp only [Option.some.injEq, Prod.mk.injEq] at h
      obtain ⟨rfl, rfl⟩ := h
      simp [ih hc]
    · split at h
      · rename_i hc
        simp only [beq_iff_eq] at hc
        simp only [Option.some.injEq, Prod.mk.injEq] at h
        obtain ⟨rfl, rfl⟩ := h
        simp [hc]
      · simp at h

/-- An assignment and the text behind it make up the text. -/
theorem Assignment.source_here? {t : Text} {a : Assignment} (h : Assignment.here? t = some a) :
    t = a.gap ++ a.lead ++ '=' :: (a.trail ++ a.rest) := by
  rw [Assignment.here?] at h
  simp only at h
  split at h
  · simp at h
  · rename_i lead tail hc
    simp only [Option.some.injEq] at h
    subst h
    have h1 := List.takeWhile_append_dropWhile (p := Text.isBlank) (l := t)
    have h2 := List.takeWhile_append_dropWhile (p := isOperator) (l := t.dropWhile Text.isBlank)
    rw [append_of_cutLastEquals? hc, List.append_assoc] at h2
    dsimp only
    rw [List.takeWhile_append_dropWhile, List.append_assoc]
    exact h1.symm.trans (congrArg (t.takeWhile Text.isBlank ++ ·) h2.symm)

theorem Assignment.braces_spaced_le (a : Assignment) :
    Text.braces a.spaced ≤ Text.braces (a.gap ++ a.lead ++ '=' :: a.trail) := by
  rw [Assignment.spaced]
  split
  · simp [Text.braces_cons]
  · simp

theorem braces_spaceAssignments_le (t : Text) :
    Text.braces (spaceAssignments t) ≤ Text.braces t := by
  fun_induction spaceAssignments t with
  | case1 => exact Nat.le_refl _
  | case2 c t a h ih =>
    have hs := Assignment.braces_spaced_le a
    have ht := congrArg Text.braces (Assignment.source_here? h)
    simp only [Text.braces_append, Text.braces_cons] at hs ht ⊢
    omega
  | case3 c t h ih =>
    rw [Text.braces_cons, Text.braces_cons]
    omega

/-- The dense form has no brace that the source does not have. -/
theorem braces_dense_le (t : Text) : Text.braces (dense t) ≤ Text.braces t := by
  rw [dense, normalize]
  refine Nat.le_trans (Text.braces_trim_le _) (Nat.le_trans (braces_spaceAssignments_le _) ?_)
  apply Nat.le_trans (Text.braces_le_of_sublist (tighten_sublist _ _))
  rw [braces_collapseBlanks]
  exact Text.braces_le_of_sublist ((dropClauses_sublist _ _ _).trans
    ((dropFirstClause_sublist _ _ _).trans (stripComments_sublist _)))

end Source

/-! ## Header, body and children -/

namespace Declaration

/-- A mention reads the text from its place on to a brace and what is behind. -/
def Mention.Reads (mention : Mention) : Prop :=
  ∀ before t run behind, mention before t = some (run, behind) → t = run ++ '{' :: behind

theorem append_of_upToBrace? {t run behind : Text} (h : upToBrace? t = some (run, behind)) :
    t = run ++ '{' :: behind := by
  rw [upToBrace?] at h
  split at h
  · rename_i rest hd
    simp only [Option.some.injEq, Prod.mk.injEq] at h
    obtain ⟨rfl, rfl⟩ := h
    rw [← hd]
    exact (List.takeWhile_append_dropWhile ..).symm
  · simp at h

theorem reads_nameEnding (name : Text) : Mention.Reads (nameEnding name) := by
  intro before t run behind h
  rw [nameEnding] at h
  split at h
  · simp at h
  · rename_i rest hp
    simp only at h
    split at h
    · simp only [Option.map_eq_some_iff, Prod.exists, Prod.mk.injEq] at h
      obtain ⟨tail, _, hb, rfl, rfl⟩ := h
      rw [Text.dropPrefix?_eq_some_iff.1 hp, append_of_upToBrace? hb]
      simp
    · simp at h

theorem reads_blanksThenName (name : Text) : Mention.Reads (blanksThenName name) := by
  intro before t
  induction t generalizing before with
  | nil =>
    intro run behind h
    simp [blanksThenName] at h
  | cons c t ih =>
    intro run behind h
    rw [blanksThenName] at h
    split at h
    · split at h
      · rename_i run' behind' hr
        simp only [Option.some.injEq, Prod.mk.injEq] at h
        obtain ⟨rfl, rfl⟩ := h
        rw [ih _ _ _ hr]
        rfl
      · simp only [Option.map_eq_some_iff, Prod.exists, Prod.mk.injEq] at h
        obtain ⟨run', _, hr, rfl, rfl⟩ := h
        rw [reads_nameEnding _ _ _ _ _ hr]
        rfl
    · simp at h

theorem reads_nameMention (name : Text) : Mention.Reads (nameMention name) := by
  intro before t run behind h
  rw [nameMention] at h
  split at h
  · exact reads_nameEnding _ _ _ _ _ h
  · simp at h

theorem reads_keywordMention (name : Text) : Mention.Reads (keywordMention name) := by
  intro before t run behind h
  rw [keywordMention] at h
  split at h
  · simp at h
  · obtain ⟨keyword, _, h⟩ := List.exists_of_findSome?_eq_some h
    split at h
    · simp at h
    · rename_i rest hp
      simp only [Option.map_eq_some_iff, Prod.exists, Prod.mk.injEq] at h
      obtain ⟨tail, _, hb, rfl, rfl⟩ := h
      rw [Text.dropPrefix?_eq_some_iff.1 hp, reads_blanksThenName _ _ _ _ _ hb]
      simp

theorem reads_lastMention? {mention : Mention} (hm : Mention.Reads mention) :
    Mention.Reads (lastMention? mention) := by
  intro before t
  induction t generalizing before with
  | nil =>
    intro run behind h
    exact hm _ _ _ _ h
  | cons c t ih =>
    intro run behind h
    rw [lastMention?] at h
    split at h
    · exact hm _ _ _ _ h
    · split at h
      · rename_i run' behind' hr
        simp only [Option.some.injEq, Prod.mk.injEq] at h
        obtain ⟨rfl, rfl⟩ := h
        rw [ih _ _ _ hr]
        rfl
      · exact hm _ _ _ _ h

theorem source_firstRun? {mention : Mention} (hm : Mention.Reads mention) {t : Text} {h : Header}
    (hr : firstRun? mention t = some h) : h.source = t := by
  fun_induction firstRun? mention t generalizing h with
  | case1 t run behind hl =>
    simp only [Option.some.injEq] at hr
    subst hr
    simpa [Header.source] using (reads_lastMention? hm _ _ _ _ hl).symm
  | case2 t _ hd => simp at hr
  | case3 t _ mark rest hd ih =>
    simp only [Option.map_eq_some_iff] at hr
    obtain ⟨found, hf, rfl⟩ := hr
    have := ih hf
    simp only [Header.source] at this ⊢
    rw [List.append_assoc, List.append_assoc, List.cons_append, ← List.append_assoc found.before,
      this, ← hd]
    exact List.takeWhile_append_dropWhile ..

/-- A header and what stands around it make up the text. -/
theorem Header.source_locate? {t name : Text} {h : Header} (hl : Header.locate? t name = some h) :
    h.source = t := by
  rw [Header.locate?] at hl
  rw [Option.or_eq_some_iff] at hl
  rcases hl with hl | ⟨_, hl⟩
  · exact source_firstRun? (reads_keywordMention name) hl
  · exact source_firstRun? (reads_nameMention name) hl

private theorem braces_nested?_le (p : Piece) :
    Text.braces p.nested?.toList.flatten ≤ Text.braces p.text := by
  cases p <;> simp [Piece.nested?, Piece.text]

private theorem text_block (declares : Bool) (t : Text) : (Piece.block declares t).text = t := by
  cases declares <;> rfl

/-- The nested declarations and what follows the body hold no more braces than
the text from the opening brace on. -/
theorem Body.braces_read_le (depth : Nat) (declares : Bool) (seen : Text) (gs : List Glyph) :
    Text.braces (Body.read depth declares seen gs).nested.flatten +
        Text.braces (((Body.read depth declares seen gs).behind.map Glyph.chars).getD []) ≤
      Text.braces seen + Text.braces (Glyph.chars gs) := by
  fun_induction Body.read depth declares seen gs with
  | case1 depth declares seen =>
    simp only [Body.nested, Piece.nested?, List.filterMap_cons, List.filterMap_nil,
      List.flatten_nil, Text.braces_nil, Option.map_none, Option.getD_none]
    omega
  | case2 declares seen g gs hr ih =>
    simp only [Glyph.chars_cons, Text.braces_cons] at ih ⊢
    omega
  | case3 declares seen g gs d hr ih =>
    simp only [Glyph.chars_cons, Text.braces_cons] at ih ⊢
    omega
  | case4 declares seen g gs hr =>
    simp only [Body.nested, Piece.nested?, List.filterMap_cons, List.filterMap_nil,
      List.flatten_nil, Text.braces_nil, Option.map_some, Option.getD_some, Glyph.chars_cons,
      Text.braces_cons]
    omega
  | case5 declares seen g gs hr ih =>
    have hp := braces_nested?_le (.block declares (g.char :: seen).reverse)
    rw [Body.nested_withPiece, Body.withPiece]
    simp only [text_block, Text.braces_reverse, Text.braces_nil, List.flatten_append,
      Text.braces_append, Glyph.chars_cons, Text.braces_cons] at hp ih ⊢
    omega
  | case6 declares seen g gs d hr ih =>
    simp only [Glyph.chars_cons, Text.braces_cons] at ih ⊢
    omega
  | case7 declares seen g gs hr ih =>
    have hp := braces_nested?_le (.member (g.char :: seen).reverse)
    rw [Body.nested_withPiece, Body.withPiece]
    simp only [Piece.text, Text.braces_reverse, Text.braces_nil, List.flatten_append,
      Text.braces_append, Glyph.chars_cons, Text.braces_cons] at hp ih ⊢
    omega
  | case8 depth declares seen g gs _ _ _ _ _ _ ih =>
    simp only [Glyph.chars_cons, Text.braces_cons] at ih ⊢
    omega

/-- The text beside a type lacks the brace of its header. -/
theorem Header.braces_leftover_lt (h : Header) :
    Text.braces h.leftover + 1 ≤ Text.braces h.source := by
  have hb : Glyph.chars (h.source.glyphs.drop (h.before.length + h.run.length + 1)) = h.behind := by
    rw [Glyph.chars, List.map_drop, ← Glyph.chars, Text.chars_glyphs, Header.source,
      ← List.length_append, ← List.drop_drop, List.drop_left]
    rfl
  have hr := Body.braces_read_le 0 false []
    (h.source.glyphs.drop (h.before.length + h.run.length + 1))
  rw [hb] at hr
  have hl : Text.braces (h.run.takeWhile Text.isBlank) ≤ Text.braces h.run :=
    Text.braces_le_of_sublist (List.takeWhile_sublist _)
  simp only [Header.leftover, Header.body, Body.ofGlyphs, Header.lead, Header.source,
    Text.braces_append, Text.braces_cons, Text.braces_nil, beq_self_eq_true, if_true] at hr hl ⊢
  omega

/-- Blocks are disjoint stretches of their text. -/
theorem braces_blocksFrom_le (depth : Nat) (seen : Text) (gs : List Glyph) :
    Text.braces (blocksFrom depth seen gs).flatten ≤
      Text.braces seen + Text.braces (Glyph.chars gs) := by
  fun_induction blocksFrom depth seen gs with
  | case1 depth seen => simp
  | case2 seen g gs d hr ih =>
    simp only [Glyph.chars_cons, Text.braces_cons] at ih ⊢
    omega
  | case3 seen g gs hr ih =>
    simp only [Glyph.chars_cons, Text.braces_cons, Text.braces_nil, List.flatten_cons,
      Text.braces_append, Text.braces_reverse] at ih ⊢
    omega
  | case4 seen g gs d hr ih =>
    simp only [Glyph.chars_cons, Text.braces_cons] at ih ⊢
    omega
  | case5 seen g gs hr ih =>
    simp only [Glyph.chars_cons, Text.braces_cons, Text.braces_nil] at ih ⊢
    omega
  | case6 depth seen g gs _ _ _ _ ih =>
    simp only [Glyph.chars_cons, Text.braces_cons] at ih ⊢
    omega

theorem braces_blocks_le (t : Text) : Text.braces (blocks t).flatten ≤ Text.braces t := by
  have hb := braces_blocksFrom_le 0 [] t.glyphs
  simp only [Text.braces_nil, Text.chars_glyphs, Nat.zero_add] at hb
  refine Nat.le_trans ?_ hb
  rw [blocks]
  generalize blocksFrom 0 [] t.glyphs = bs
  induction bs with
  | nil => exact Nat.le_refl _
  | cons b bs ih =>
    have := Text.braces_trim_le b
    simp only [List.map_cons, List.flatten_cons, Text.braces_append] at ih ⊢
    omega

private theorem text_child {parent : String} {block : Text} {file : SourceFile}
    (h : child parent block = .ok file) : file.text.toList = block := by
  rw [child] at h
  split at h
  · simp only [Except.ok.injEq] at h
    subst h
    simp
  · simp at h

private theorem texts_mapM_child {parent : String} {bs : List Text} {files : List SourceFile}
    (h : bs.mapM (child parent) = .ok files) : files.map (·.text.toList) = bs := by
  induction bs generalizing files with
  | nil =>
    simp only [List.mapM_nil, pure, Except.pure, Except.ok.injEq] at h
    subst h
    rfl
  | cons b bs ih =>
    rw [List.mapM_cons] at h
    cases hb : child parent b with
    | error e => simp [hb, bind, Except.bind] at h
    | ok file =>
      cases hs : bs.mapM (child parent) with
      | error e => simp [hb, hs, bind, Except.bind] at h
      | ok rest =>
        simp only [hb, hs, bind, Except.bind, pure, Except.pure, Except.ok.injEq] at h
        subst h
        simp [text_child hb, ih hs]

/-- The texts of the children of a text are its blocks. -/
theorem texts_children {parent : String} {t : Text} {files : List SourceFile}
    (h : children parent t = .ok files) : files.map (·.text.toList) = blocks t :=
  texts_mapM_child h

end Declaration

/-! ## Files -/

/-- The number of opening braces of a file. -/
def SourceFile.braces (file : SourceFile) : Nat := Text.braces file.text.toList

/-- The number of opening braces of several files. -/
def SourceFile.bracesOf (files : List SourceFile) : Nat :=
  Text.braces (files.map (·.text.toList)).flatten

@[simp] theorem SourceFile.bracesOf_cons (file : SourceFile) (files : List SourceFile) :
    bracesOf (file :: files) = file.braces + bracesOf files := by
  simp [bracesOf, braces]

@[simp] theorem SourceFile.bracesOf_append (files others : List SourceFile) :
    bracesOf (files ++ others) = bracesOf files + bracesOf others := by
  simp [bracesOf]

/-- The children of a file together lack at least one of its opening braces. -/
theorem SourceFile.braces_children {settings : Settings} {id : Identifier} {file : SourceFile}
    {reading : Reading} (h : file.read settings id = .ok reading) :
    SourceFile.bracesOf reading.children + 1 ≤ file.braces := by
  rw [SourceFile.read] at h
  split at h
  · simp at h
  · rename_i header hl
    split at h
    · simp at h
    · rename_i signature _
      split at h
      · simp at h
      · rename_i children hc
        simp only [Except.ok.injEq] at h
        subst h
        have ht := Declaration.texts_children hc
        have hb := Declaration.braces_blocks_le header.leftover
        have hs := Declaration.Header.braces_leftover_lt header
        have hd := Source.braces_dense_le file.text.toList
        rw [Declaration.Header.source_locate? hl] at hs
        rw [← ht] at hb
        exact Nat.le_trans (Nat.succ_le_succ hb) (Nat.le_trans hs hd)

end ClassDiagram
