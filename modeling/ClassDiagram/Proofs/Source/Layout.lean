import ClassDiagram.Proofs.Source.Comment
import ClassDiagram.Proofs.Source.Loss

/-!
# Layouts of a source

A source can be laid out in many ways. Any stretch of blanks may stand in the place of another
one (`Relaid`), and a line may end in a carriage return and a line feed (`Returned`). Of a
stretch of blanks the scans for clauses see no more than that it is there, and a clause takes all
of its blanks with it. So what they leave depends, up to the stretches of blanks that are left,
on the text with single spaces alone (`collapseBlanks_dropAllClauses`). A line comment takes the
carriage return in front of its line feed with it, and every other one becomes part of a stretch
of blanks (`Returned.stripComments`). Thus all layouts have the same dense form
(`normalize_layout`).
-/

namespace ClassDiagram.Source

/-! ## Layouts -/

/-- Some blanks, and nothing else. -/
structure BlankRun (t : Text) : Prop where
  ne_nil : t ≠ []
  blank : ∀ c ∈ t, Text.isBlank c = true

/-- The second text is the first one in another layout: in the place of each stretch of blanks,
taken as long as possible, it has a stretch of blanks, which may be the same. -/
inductive Relaid : Text → Text → Prop where
  | nil : Relaid [] []
  | char {c : Char} {s t : Text} (hc : Text.isBlank c = false) (h : Relaid s t) :
      Relaid (c :: s) (c :: t)
  | run {u v s t : Text} (hu : BlankRun u) (hv : BlankRun v)
      (hs : s.head?.any Text.isBlank = false) (h : Relaid s t) : Relaid (u ++ s) (v ++ t)

/-- The second text is the first one with a carriage return in front of some of its line
feeds. -/
inductive Returned : Text → Text → Prop where
  | nil : Returned [] []
  | char (c : Char) {s t : Text} (h : Returned s t) : Returned (c :: s) (c :: t)
  | lineFeed {s t : Text} (h : Returned s t) : Returned ('\n' :: s) ('\r' :: '\n' :: t)

/-! ## Single spaces -/

section Collapse

variable {c : Char} {u s t : Text}

theorem trimStart_collapseBlanks (t : Text) :
    Text.trimStart (collapseBlanks t) = collapseBlanks (Text.trimStart t) := by
  have hstay {s : Text} (hs : s.head?.any Text.isBlank = false) :
      Text.trimStart (collapseBlanks s) = collapseBlanks s := by
    cases s with
    | nil => rfl
    | cons c s =>
        rw [collapseBlanks_cons hs]
        exact Text.trimStart_of_head? (t := c :: collapseBlanks s) hs
  cases t with
  | nil => rfl
  | cons c t =>
      cases hc : Text.isBlank c with
      | false =>
          rw [Text.trimStart_of_head? (t := c :: t) hc]
          exact hstay hc
      | true =>
          rw [collapseBlanks_blank hc, Text.trimStart_blank rfl, Text.trimStart_blank hc]
          exact hstay (Text.head?_trimStart t)

/-- A blank gives one space, together with the blanks behind it. -/
theorem collapseBlanks_blank_cons (hc : Text.isBlank c = true) (t : Text) :
    collapseBlanks (c :: t) = ' ' :: Text.trimStart (collapseBlanks t) := by
  rw [collapseBlanks_blank hc, trimStart_collapseBlanks]

theorem collapseBlanks_run (hu : BlankRun u) (t : Text) :
    collapseBlanks (u ++ t) = ' ' :: Text.trimStart (collapseBlanks t) := by
  obtain ⟨hne, hblank⟩ := hu
  cases u with
  | nil => exact absurd rfl hne
  | cons c u =>
      obtain ⟨hc, hu⟩ := List.forall_mem_cons.mp hblank
      rw [List.cons_append, collapseBlanks_blank hc, Text.trimStart_append_of_blank hu,
        trimStart_collapseBlanks]

@[simp] theorem collapseBlanks_collapseBlanks (t : Text) :
    collapseBlanks (collapseBlanks t) = collapseBlanks t := by
  induction t with
  | nil => rfl
  | cons c t ih =>
      cases hc : Text.isBlank c with
      | false => rw [collapseBlanks_cons hc, collapseBlanks_cons hc, ih]
      | true =>
          rw [collapseBlanks_blank_cons hc, collapseBlanks_blank_cons rfl,
            ← trimStart_collapseBlanks, ih, Text.trimStart_trimStart]

/-- Two layouts of a text have the same form with single spaces. -/
theorem Relaid.collapseBlanks_eq (h : Relaid s t) : collapseBlanks s = collapseBlanks t := by
  induction h with
  | nil => rfl
  | char hc _ ih => rw [collapseBlanks_cons hc, collapseBlanks_cons hc, ih]
  | run hu hv _ _ ih => rw [collapseBlanks_run hu, collapseBlanks_run hv, ih]

theorem Returned.collapseBlanks_eq (h : Returned s t) : collapseBlanks s = collapseBlanks t := by
  induction h with
  | nil => rfl
  | char c _ ih =>
      cases hc : Text.isBlank c with
      | false => rw [collapseBlanks_cons hc, collapseBlanks_cons hc, ih]
      | true => rw [collapseBlanks_blank_cons hc, collapseBlanks_blank_cons hc, ih]
  | @lineFeed s t _ ih =>
      have hreturn : BlankRun ['\r', '\n'] :=
        ⟨List.cons_ne_nil _ _, Text.forall_mem_of_all rfl⟩
      have hfeed : BlankRun ['\n'] :=
        ⟨List.cons_ne_nil _ _, List.forall_mem_singleton.mpr rfl⟩
      calc collapseBlanks (['\n'] ++ s)
          = ' ' :: Text.trimStart (collapseBlanks s) := collapseBlanks_run hfeed s
        _ = ' ' :: Text.trimStart (collapseBlanks t) := by rw [ih]
        _ = collapseBlanks (['\r', '\n'] ++ t) := (collapseBlanks_run hreturn t).symm

end Collapse

/-! ## Clauses in a layout -/

section Clause

variable {keyword t after : Text} {before : Option Char} {c : Char}

theorem dropPrefix?_collapseBlanks (hkeyword : Text.Solid keyword) (t : Text) :
    Text.dropPrefix? keyword (collapseBlanks t) =
      (Text.dropPrefix? keyword t).map collapseBlanks := by
  induction keyword generalizing t with
  | nil => rfl
  | cons k keyword ih =>
      obtain ⟨hk, hrest⟩ := List.forall_mem_cons.mp hkeyword
      cases t with
      | nil => rfl
      | cons c t =>
          cases hc : Text.isBlank c with
          | false =>
              rw [collapseBlanks_cons hc, Text.dropPrefix?, Text.dropPrefix?, ih hrest]
              split
              · rfl
              · rfl
          | true =>
              have hspace : k ≠ ' ' := (Text.ne_of_isBlank rfl hk).symm
              have hblank : k ≠ c := (Text.ne_of_isBlank hc hk).symm
              rw [collapseBlanks_blank_cons hc, Text.dropPrefix?, Text.dropPrefix?, if_neg hspace,
                if_neg hblank]
              rfl

/-- Up to the first semicolon blanks are passed over like all else. -/
theorem dropWhile_blank (hc : Text.isBlank c = true) (t : Text) :
    (c :: t).dropWhile (· != ';') = t.dropWhile (· != ';') :=
  List.dropWhile_cons_of_pos (bne_iff_ne.mpr (Text.ne_of_isBlank hc rfl))

theorem dropWhile_trimStart (t : Text) :
    (Text.trimStart t).dropWhile (· != ';') = t.dropWhile (· != ';') := by
  induction t with
  | nil => rfl
  | cons c t ih =>
      cases hc : Text.isBlank c with
      | false => rw [Text.trimStart_of_head? (t := c :: t) hc]
      | true => rw [Text.trimStart_blank hc, ih, dropWhile_blank hc]

theorem dropWhile_collapseBlanks (t : Text) :
    (collapseBlanks t).dropWhile (· != ';') = collapseBlanks (t.dropWhile (· != ';')) := by
  induction t with
  | nil => rfl
  | cons c t ih =>
      cases hc : Text.isBlank c with
      | true =>
          rw [collapseBlanks_blank_cons hc, dropWhile_blank rfl, dropWhile_trimStart, ih,
            dropWhile_blank hc]
      | false =>
          rw [collapseBlanks_cons hc, List.dropWhile_cons, List.dropWhile_cons, ih]
          split
          · rfl
          · rw [collapseBlanks_cons hc]

/-- A clause begins in a text exactly if one begins in the text with single spaces, and the same
text is behind it. -/
theorem afterClause?_collapseBlanks (hkeyword : Text.IsWord keyword) (before : Option Char)
    (t : Text) :
    afterClause? keyword before (collapseBlanks t) =
      (afterClause? keyword before t).map collapseBlanks := by
  rw [afterClause?, afterClause?, dropPrefix?_collapseBlanks hkeyword.solid]
  split
  · rfl
  · rcases Text.dropPrefix? keyword t with _ | _ | ⟨c, rest⟩
    · rfl
    · rfl
    · rw [Option.map_some]
      cases hc : Text.isBlank c with
      | false => simp [collapseBlanks_cons hc, hc]
      | true =>
          have hspace : Text.isBlank ' ' = true := rfl
          have hbehind : (Text.trimStart (collapseBlanks rest)).dropWhile (· != ';') =
              collapseBlanks (rest.dropWhile (· != ';')) := by
            rw [← dropWhile_collapseBlanks, dropWhile_trimStart]
          rw [collapseBlanks_blank_cons hc]
          dsimp only
          rw [if_pos hspace, if_pos hc, hbehind]
          cases hmark : rest.dropWhile (· != ';') with
          | nil => rfl
          | cons d behind =>
              have hd : Text.isBlank d = false := by
                have hhead := List.head_dropWhile_not (· != ';') (l := rest) (by simp [hmark])
                have hd : d = ';' := by simpa [hmark] using hhead
                rw [hd]
                rfl
              rw [collapseBlanks_cons hd]
              rfl

theorem dropFirstClause_clause (h : afterClause? keyword before t = some after) :
    dropFirstClause keyword before t = after := by
  cases t with
  | nil => exact absurd (length_afterClause? h) (Nat.not_lt_zero _)
  | cons c t =>
      rw [dropFirstClause]
      simp only [h]

theorem dropClauses_clause (h : afterClause? keyword before t = some after) :
    dropClauses keyword before t = dropClauses keyword (some ';') after := by
  cases t with
  | nil => exact absurd (length_afterClause? h) (Nat.not_lt_zero _)
  | cons c t =>
      rw [dropClauses]
      split
      · rename_i found hfound
        rw [h] at hfound
        cases hfound
        rfl
      · rename_i hnone
        rw [h] at hnone
        cases hnone

namespace Copies

variable {scan : Option Char → Text → Text} {c : Char}

/-- Blanks at the front are copied, and the scan goes on behind them. -/
theorem trimStart_scan (h : Copies keyword scan) (hkeyword : Text.IsWord keyword) (t : Text) :
    Text.trimStart (scan none (Text.trimStart t)) = Text.trimStart (scan none t) := by
  induction t with
  | nil => rfl
  | cons c t ih =>
      cases hc : Text.isBlank c with
      | false => rw [Text.trimStart_of_head? (t := c :: t) hc]
      | true =>
          have hword := Text.isWordChar_of_isBlank hc
          rw [Text.trimStart_blank hc, ih, h.mark_cons hkeyword hword, Text.trimStart_blank hc]

/-- Where no clause begins a character is copied in either layout. -/
theorem collapseBlanks_scan_cons (h : Copies keyword scan) (hkeyword : Text.IsWord keyword)
    (hnone : afterClause? keyword before (c :: t) = none)
    (ht : collapseBlanks (scan (some c) (collapseBlanks t)) = collapseBlanks (scan (some c) t)) :
    collapseBlanks (scan before (collapseBlanks (c :: t))) =
      collapseBlanks (scan before (c :: t)) := by
  rw [h.cons before c t hnone]
  cases hc : Text.isBlank c with
  | false =>
      have hsame : afterClause? keyword before (c :: collapseBlanks t) = none := by
        rw [← collapseBlanks_cons hc, afterClause?_collapseBlanks hkeyword, hnone]
        rfl
      rw [collapseBlanks_cons hc, h.cons before c _ hsame, collapseBlanks_cons hc, ht,
        collapseBlanks_cons hc]
  | true =>
      have hword := Text.isWordChar_of_isBlank hc
      rw [h.mark c _ hword, h.mark c _ hword] at ht
      have hrest := calc
        Text.trimStart (collapseBlanks (scan none (Text.trimStart (collapseBlanks t))))
          = collapseBlanks (Text.trimStart (scan none (Text.trimStart (collapseBlanks t)))) :=
            trimStart_collapseBlanks _
        _ = collapseBlanks (Text.trimStart (scan none (collapseBlanks t))) := by
            rw [h.trimStart_scan hkeyword]
        _ = Text.trimStart (collapseBlanks (scan none (collapseBlanks t))) :=
            (trimStart_collapseBlanks _).symm
        _ = Text.trimStart (collapseBlanks (scan none t)) := by rw [ht]
      rw [collapseBlanks_blank_cons hc, h.mark_cons hkeyword rfl, collapseBlanks_blank_cons rfl,
        hrest, h.mark c _ hword, collapseBlanks_blank_cons hc]

end Copies

theorem collapseBlanks_dropFirstClause (hkeyword : Text.IsWord keyword) (before : Option Char)
    (t : Text) :
    collapseBlanks (dropFirstClause keyword before (collapseBlanks t)) =
      collapseBlanks (dropFirstClause keyword before t) := by
  fun_induction dropFirstClause keyword before t with
  | case1 => rfl
  | case2 before c t after hafter =>
      have hclause := afterClause?_collapseBlanks hkeyword before (c :: t)
      rw [hafter] at hclause
      rw [dropFirstClause_clause hclause, collapseBlanks_collapseBlanks]
  | case3 before c t hnone ih =>
      have hcopied := (copies_dropFirstClause keyword).collapseBlanks_scan_cons hkeyword hnone ih
      rwa [(copies_dropFirstClause keyword).cons before c t hnone] at hcopied

theorem collapseBlanks_dropClauses (hkeyword : Text.IsWord keyword) (before : Option Char)
    (t : Text) :
    collapseBlanks (dropClauses keyword before (collapseBlanks t)) =
      collapseBlanks (dropClauses keyword before t) := by
  fun_induction dropClauses keyword before t with
  | case1 before => exact congrArg collapseBlanks ((copies_dropClauses keyword).nil before)
  | case2 before c t after hafter ih =>
      have hclause := afterClause?_collapseBlanks hkeyword before (c :: t)
      rw [hafter] at hclause
      rw [dropClauses_clause hclause, ih]
  | case3 before c t hnone ih =>
      have hcopied := (copies_dropClauses keyword).collapseBlanks_scan_cons hkeyword hnone ih
      rwa [(copies_dropClauses keyword).cons before c t hnone] at hcopied

/-- What is left without clauses has the blanks of the text in their places. -/
theorem collapseBlanks_dropAllClauses (t : Text) :
    collapseBlanks (dropAllClauses (collapseBlanks t)) = collapseBlanks (dropAllClauses t) := by
  have hpackage := collapseBlanks_dropFirstClause (by decide : Text.IsWord "package".toList) none t
  have himport (s : Text) :=
    collapseBlanks_dropClauses (by decide : Text.IsWord "import".toList) none s
  rw [dropAllClauses, ← himport, hpackage, himport, dropAllClauses]

/-- The dense form of a text depends on the text with single spaces alone. -/
theorem normalize_eq_of_collapseBlanks_eq {s : Text} (h : collapseBlanks s = collapseBlanks t) :
    normalize s = normalize t := by
  have hnormalize (u : Text) : normalize u =
      Text.trim (spaceAssignments (tighten false (collapseBlanks (dropAllClauses u)))) := rfl
  rw [hnormalize s, hnormalize t, ← collapseBlanks_dropAllClauses s, h,
    collapseBlanks_dropAllClauses]

end Clause

/-! ## Comments in a layout -/

namespace Returned

variable {c : Char} {s t : Text}

theorem exists_cons (h : Returned (c :: s) t) (hc : c ≠ '\n') :
    ∃ u, t = c :: u ∧ Returned s u := by
  cases h with
  | char _ h => exact ⟨_, rfl, h⟩
  | lineFeed _ => exact absurd rfl hc

/-- What comes first is the same, or it is a carriage return in front of a line feed. -/
theorem head? (h : Returned s t) :
    t.head? = s.head? ∨ s.head? = some '\n' ∧ t.head? = some '\r' := by
  cases h with
  | nil => exact .inl rfl
  | char _ _ => exact .inl rfl
  | lineFeed _ => exact .inr ⟨rfl, rfl⟩

/-- A line comment takes the carriage return with it. -/
theorem afterLine (h : Returned s t) : Returned (afterLine s) (afterLine t) := by
  induction h with
  | nil => exact .nil
  | @char c s t h ih =>
      by_cases hc : c = '\n'
      · subst hc
        exact .char '\n' h
      · rw [Source.afterLine, Source.afterLine, List.dropWhile_cons_of_pos (by simpa using hc),
          List.dropWhile_cons_of_pos (by simpa using hc)]
        exact ih
  | lineFeed h => exact .char '\n' h

theorem afterBlock (h : Returned s t) : Returned (afterBlock s) (afterBlock t) := by
  fun_induction Source.afterBlock s generalizing t with
  | case1 s =>
      obtain ⟨u, rfl, htail⟩ := h.exists_cons (by decide)
      obtain ⟨v, rfl, hrest⟩ := htail.exists_cons (by decide)
      rw [Source.afterBlock]
      exact hrest
  | case2 c s hend ih =>
      cases h with
      | @char _ _ u h =>
          have hgoes : ∀ behind, c = '*' → u = '/' :: behind → False := by
            rintro behind hc rfl
            rcases h.head? with hhead | ⟨-, hreturn⟩
            · obtain ⟨rest, hs⟩ := List.head?_eq_some_iff.mp hhead.symm
              exact hend rest hc hs
            · cases hreturn
          rw [Source.afterBlock.eq_2 c u hgoes]
          exact ih h
      | lineFeed h =>
          rw [Source.afterBlock, Source.afterBlock]
          · exact ih h
          · simp
          · simp
  | case3 =>
      cases h
      exact .nil

/-- No comment opens in one of the texts that does not open in the other. -/
theorem opensComment_eq (h : Returned s t) (c : Char) :
    opensComment (c :: t) = opensComment (c :: s) := by
  rw [Bool.eq_iff_iff, opensComment_cons, opensComment_cons]
  rcases h.head? with hhead | ⟨hs, ht⟩
  · rw [hhead]
  · simp [hs, ht]

/-- What is left without comments has the line feeds of the text, as far as they are left. -/
theorem stripComments (h : Returned s t) : Returned (stripComments s) (stripComments t) := by
  fun_induction Source.stripComments s generalizing t with
  | case1 s ih =>
      obtain ⟨u, rfl, htail⟩ := h.exists_cons (by decide)
      obtain ⟨v, rfl, hrest⟩ := htail.exists_cons (by decide)
      rw [Source.stripComments]
      exact ih hrest.afterLine
  | case2 s ih =>
      obtain ⟨u, rfl, htail⟩ := h.exists_cons (by decide)
      obtain ⟨v, rfl, hrest⟩ := htail.exists_cons (by decide)
      rw [Source.stripComments]
      exact ih hrest.afterBlock
  | case3 c s hline hblock ih =>
      have hs : opensComment (c :: s) = false := by
        rw [← Bool.not_eq_true, opensComment_cons]
        rintro ⟨hc, hhead | hhead⟩
        · obtain ⟨rest, hs⟩ := List.head?_eq_some_iff.mp hhead
          exact hline rest hc hs
        · obtain ⟨rest, hs⟩ := List.head?_eq_some_iff.mp hhead
          exact hblock rest hc hs
      cases h with
      | @char _ _ u h =>
          rw [stripComments_cons_of_not (h.opensComment_eq c ▸ hs)]
          exact .char c (ih h)
      | lineFeed h =>
          rw [stripComments_cons (by decide), stripComments_cons (by decide)]
          exact .lineFeed (ih h)
  | case4 =>
      cases h
      rw [Source.stripComments]
      exact .nil

end Returned

/-! ## The dense form of all layouts -/

/-- The dense form of a text does not depend on its layout: any stretches of blanks may stand in
the places of others. Nor does the dense form of a source, comments included, depend on which of
its lines end in a carriage return and a line feed and which in a line feed alone. -/
theorem normalize_layout :
    (∀ s t, Relaid s t → normalize s = normalize t) ∧
      ∀ s t, Returned s t → dense s = dense t := by
  refine ⟨fun s t h => normalize_eq_of_collapseBlanks_eq h.collapseBlanks_eq, fun s t h => ?_⟩
  exact normalize_eq_of_collapseBlanks_eq h.stripComments.collapseBlanks_eq

/-- A field between an import clause and a comment. The second layout has an ideographic space, a
tab and an empty line in it, and in the third one the line of the comment ends in a carriage
return. -/
theorem normalize_layout_field :
    let s := "import a.b;\nint x= 1;//one\n".toList
    let t := "import\u3000a.b; \r\n\nint\tx=\n1;//one ".toList
    let u := "import a.b;\nint x= 1;//one\r\n".toList
    Relaid s t ∧ normalize s = normalize t ∧ Returned s u ∧ dense s = dense u := by
  have hsolid {w s t : Text} (hw : Text.Solid w) (h : Relaid s t) : Relaid (w ++ s) (w ++ t) := by
    induction w with
    | nil => exact h
    | cons c w ih =>
        obtain ⟨hc, hw⟩ := List.forall_mem_cons.mp hw
        exact .char hc (ih hw)
  have hrelaid : Relaid "import a.b;\nint x= 1;//one\n".toList
      "import\u3000a.b; \r\n\nint\tx=\n1;//one ".toList := by
    have hgap {c : Char} {v s t : Text} (hc : Text.isBlank c = true) (hne : v ≠ [])
        (hv : v.all Text.isBlank = true) (hs : s.head?.any Text.isBlank = false)
        (h : Relaid s t) : Relaid (c :: s) (v ++ t) :=
      .run (u := [c]) ⟨List.cons_ne_nil _ _, List.forall_mem_singleton.mpr hc⟩
        ⟨hne, List.all_eq_true.mp hv⟩ hs h
    refine hsolid (w := "import".toList) (Text.forall_mem_of_all rfl) ?_
    refine hgap (v := "\u3000".toList) rfl (by decide) rfl rfl ?_
    refine hsolid (w := "a.b;".toList) (Text.forall_mem_of_all rfl) ?_
    refine hgap (v := " \r\n\n".toList) rfl (by decide) rfl rfl ?_
    refine hsolid (w := "int".toList) (Text.forall_mem_of_all rfl) ?_
    refine hgap (v := "\t".toList) rfl (by decide) rfl rfl ?_
    refine hsolid (w := "x=".toList) (Text.forall_mem_of_all rfl) ?_
    refine hgap (v := "\n".toList) rfl (by decide) rfl rfl ?_
    refine hsolid (w := "1;//one".toList) (Text.forall_mem_of_all rfl) ?_
    exact hgap (v := " ".toList) rfl (by decide) rfl rfl .nil
  have hreturned : Returned "import a.b;\nint x= 1;//one\n".toList
      "import a.b;\nint x= 1;//one\r\n".toList := by
    have hsame (w : Text) {s t : Text} (h : Returned s t) : Returned (w ++ s) (w ++ t) := by
      induction w with
      | nil => exact h
      | cons c w ih => exact .char c ih
    exact hsame "import a.b;\nint x= 1;//one".toList (.lineFeed .nil)
  exact ⟨hrelaid, normalize_layout.1 _ _ hrelaid, hreturned, normalize_layout.2 _ _ hreturned⟩

end ClassDiagram.Source
