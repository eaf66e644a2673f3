import ClassDiagram.Proofs.Source.Assignment
import ClassDiagram.Proofs.Source.Loss

/-!
# Dense texts are arranged already

Two steps arrange the blanks of a text: the first squeezes them, which takes the spaces away
next to tight marks, and the second spaces the equals signs, which puts some of them back. The
second undoes all that the first one does to its own result (`arrange_spaceAssignments`), so an
arrangement stays as it is when it is arranged again. Blanks at the ends of a text come to
nothing but blanks at the ends. Thus the dense form of a dense text in which no clause
begins is that text (`normalize_normalize`).
-/

namespace ClassDiagram

namespace Source

/-- The text with single spaces between its parts, and none next to a tight mark. `tight` says
whether the character before it is a tight mark. -/
def squeeze (tight : Bool) (t : Text) : Text := tighten tight (collapseBlanks t)

theorem arrange_eq (tight : Bool) (t : Text) :
    arrange tight t = spaceAssignments (squeeze tight t) := rfl

/-! ## Squeezing at the front -/

section Front

variable {tight : Bool} {c : Char} {t : Text}

@[simp] theorem squeeze_nil : squeeze tight [] = [] := rfl

theorem squeeze_cons (hc : Text.isBlank c = false) (t : Text) :
    squeeze tight (c :: t) = c :: squeeze (isTight c) t := by
  rw [squeeze, collapseBlanks_cons hc, tighten_cons hc, squeeze]

/-- What stands before changes nothing in front of a character that is no blank. -/
theorem squeeze_eq (h : t.head?.any Text.isBlank = false) (tight : Bool) :
    squeeze tight t = squeeze true t := by
  cases t with
  | nil => rfl
  | cons c t => rw [squeeze_cons h, squeeze_cons h]

theorem squeeze_trimStart (t : Text) : squeeze true (Text.trimStart t) = squeeze true t := by
  cases t with
  | nil => rfl
  | cons c t =>
      cases hc : Text.isBlank c with
      | false => rw [Text.trimStart_of_head? (t := c :: t) hc]
      | true =>
          rw [Text.trimStart_blank hc, squeeze, squeeze, collapseBlanks_blank hc,
            tighten_true_blank rfl]

theorem squeeze_true_blank (hc : Text.isBlank c = true) (t : Text) :
    squeeze true (c :: t) = squeeze true t := by
  rw [← squeeze_trimStart, Text.trimStart_blank hc, squeeze_trimStart]

theorem head?_squeeze (t : Text) : (squeeze true t).head? = (Text.trimStart t).head? := by
  rw [← squeeze_trimStart]
  cases h : Text.trimStart t with
  | nil => rfl
  | cons c s =>
      have hc : Text.isBlank c = false := by simpa [h] using Text.head?_trimStart t
      rw [squeeze_cons hc]
      rfl

theorem head?_squeeze_blank (t : Text) : (squeeze true t).head?.any Text.isBlank = false := by
  rw [head?_squeeze]
  exact Text.head?_trimStart t

/-- Blanks at the front become one space, unless a tight mark follows. -/
theorem squeeze_false_blank (hc : Text.isBlank c = true) (t : Text) :
    squeeze false (c :: t) = gapBefore t ++ squeeze true t := by
  have hspace : Text.isBlank ' ' = true := rfl
  rw [squeeze, collapseBlanks_blank hc, gapBefore, ← squeeze_trimStart]
  cases h : Text.trimStart t with
  | nil => rfl
  | cons d s =>
      have hd : Text.isBlank d = false := by simpa [h] using Text.head?_trimStart t
      rw [collapseBlanks_cons hd, tighten, if_pos hspace,
        Text.trimStart_of_head? (t := d :: collapseBlanks s) hd, tighten_cons hd, squeeze_cons hd]
      cases hmark : isTight d with
      | true => simp [hmark, squeeze]
      | false => simp [hmark, squeeze]

theorem trimStart_squeeze (tight : Bool) (t : Text) :
    Text.trimStart (squeeze tight t) = squeeze true t := by
  have hself : Text.trimStart (squeeze true t) = squeeze true t :=
    Text.trimStart_of_head? (head?_squeeze_blank t)
  cases tight with
  | true => exact hself
  | false =>
      cases t with
      | nil => rfl
      | cons c t =>
          cases hc : Text.isBlank c with
          | false => rw [squeeze_eq (t := c :: t) hc, hself]
          | true =>
              rw [squeeze_false_blank hc, squeeze_true_blank hc, gapBefore]
              split
              · rwa [squeeze_true_blank hc] at hself
              · rw [List.singleton_append, Text.trimStart_blank rfl]
                rwa [squeeze_true_blank hc] at hself

end Front

/-! ## Squeezed texts -/

/-- The blanks of a text are single spaces that stand next to no tight mark. -/
inductive Squeezed : Bool → Text → Prop where
  | nil {tight : Bool} : Squeezed tight []
  | char {tight : Bool} {c : Char} {t : Text} (hc : Text.isBlank c = false)
      (h : Squeezed (isTight c) t) : Squeezed tight (c :: t)
  | space {t : Text} (hblank : t.head?.any Text.isBlank = false)
      (htight : t.head?.any isTight = false) (h : Squeezed true t) : Squeezed false (' ' :: t)

namespace Squeezed

variable {tight : Bool} {c : Char} {s t : Text} {a : Assignment}

theorem mono (h : Squeezed true t) (tight : Bool) : Squeezed tight t := by
  cases h with
  | nil => exact .nil
  | char hc h => exact .char hc h

theorem of_squeeze (tight : Bool) (t : Text) : Squeezed tight (squeeze tight t) := by
  induction t generalizing tight with
  | nil => exact .nil
  | cons c t ih =>
      cases hc : Text.isBlank c with
      | false =>
          rw [squeeze_cons hc]
          exact .char hc (ih _)
      | true =>
          cases tight with
          | true =>
              rw [squeeze_true_blank hc]
              exact ih true
          | false =>
              rw [squeeze_false_blank hc, gapBefore]
              split
              · exact (ih true).mono false
              · rename_i hmark
                rw [List.singleton_append]
                refine .space (head?_squeeze_blank t) ?_ (ih true)
                rw [head?_squeeze]
                exact Bool.eq_false_iff.mpr hmark

theorem head?_blank (h : Squeezed true t) : t.head?.any Text.isBlank = false := by
  cases h with
  | nil => rfl
  | char hc _ => exact hc

theorem tail (h : Squeezed tight (c :: t)) (hc : Text.isBlank c = false) :
    Squeezed (isTight c) t := by
  cases h with
  | char _ h => exact h
  | space => cases hc

theorem exists_tail (h : Squeezed tight (c :: t)) : ∃ flag, Squeezed flag t := by
  cases h with
  | char _ h => exact ⟨_, h⟩
  | space _ _ h => exact ⟨_, h⟩

theorem behind (h : Squeezed tight (s ++ c :: t)) (hc : Text.isBlank c = false) :
    Squeezed (isTight c) t := by
  induction s generalizing tight with
  | nil => exact h.tail hc
  | cons d s ih =>
      obtain ⟨flag, h⟩ := h.exists_tail
      exact ih h

/-- Blanks at the front are none or a single space. -/
theorem blanks (h : Squeezed tight (s ++ t)) (hs : ∀ c ∈ s, Text.isBlank c = true) :
    s = [] ∨ s = [' '] ∧ tight = false ∧ t.head?.any isTight = false ∧ Squeezed true t := by
  cases s with
  | nil => exact .inl rfl
  | cons c s =>
      have hc := hs c (by simp)
      cases h with
      | char hchar _ =>
          rw [hc] at hchar
          cases hchar
      | space hblank htight h =>
          cases s with
          | nil => exact .inr ⟨rfl, rfl, htight, h⟩
          | cons d s =>
              have hd : Text.isBlank d = false := hblank
              rw [hs d (by simp)] at hd
              cases hd

/-- The blanks around an assignment in a squeezed text, and the text behind it. -/
theorem assignment (h : Squeezed tight t) (ha : a.StandsAt t) :
    (a.gap = [] ∨ a.gap = [' '] ∧ tight = false) ∧
      (a.trail = [] ∨ a.trail = [' '] ∧ a.rest.head?.any isTight = false) ∧
      Squeezed true a.rest := by
  rw [ha.source] at h
  have hbehind : Squeezed false (a.trail ++ a.rest) := by
    rw [← List.append_assoc] at h
    exact h.behind rfl
  refine ⟨(h.blanks ha.gap).imp_right fun hgap => ⟨hgap.1, hgap.2.1⟩, ?_⟩
  rcases hbehind.blanks ha.trail with hnil | ⟨htrail, -, htight, hrest⟩
  · refine ⟨.inl hnil, ?_⟩
    rw [hnil, List.nil_append] at hbehind
    cases hrest : a.rest with
    | nil => exact .nil
    | cons c rest =>
        have hc : Text.isBlank c = false := by simpa [hrest] using ha.rest
        rw [hrest] at hbehind
        exact .char hc (hbehind.tail hc)
  · exact ⟨.inr ⟨htrail, htight⟩, hrest⟩

end Squeezed

/-! ## Arranging a text again -/

section Again

variable {tight : Bool} {c : Char} {t : Text}

/-- No operator character stands behind blanks that are squeezed, but a space or a tight mark. -/
theorem takeWhile_gapBefore (t : Text) :
    (gapBefore t ++ squeeze true t).takeWhile isOperator = [] := by
  rw [gapBefore]
  split
  · rename_i hmark
    rw [List.nil_append]
    cases hsqueeze : squeeze true t with
    | nil => rfl
    | cons d s =>
        rw [← head?_squeeze, hsqueeze] at hmark
        have hoperator : isOperator d = false := isOperator_of_isTight hmark
        exact List.takeWhile_cons_of_neg (by simp [hoperator])
  · rfl

/-- A space in front of a text stays if no tight mark comes next. -/
theorem gapBefore_spaceAssignments (hblank : t.head?.any Text.isBlank = false)
    (hmark : t.head?.any isTight = false) : gapBefore (spaceAssignments t) = [' '] := by
  rw [gapBefore, head?_trimStart_spaceAssignments, Text.trimStart_of_head? hblank,
    if_neg (Bool.eq_false_iff.mp hmark)]

/-- A run of operator characters without equals signs stays as it is. -/
theorem takeWhile_squeeze_spaceAssignments (h : '=' ∉ t.takeWhile isOperator) :
    (squeeze false (spaceAssignments t)).takeWhile isOperator = t.takeWhile isOperator := by
  induction t with
  | nil => rw [spaceAssignments_nil, squeeze_nil]
  | cons c t ih =>
      cases hc : Text.isBlank c with
      | true =>
          have hoperator := isOperator_of_isBlank hc
          obtain ⟨d, s, hspace, hd⟩ := exists_blank_spaceAssignments hc t
          rw [hspace, squeeze_false_blank hd, takeWhile_gapBefore,
            List.takeWhile_cons_of_neg (by simp [hoperator])]
      | false =>
          have hnone : Assignment.here? (c :: t) = none := by
            rw [Assignment.here?_eq_none_iff, Text.trimStart_of_head? (t := c :: t) hc]
            exact h
          rw [spaceAssignments_cons_none hnone, squeeze_cons hc]
          cases hoperator : isOperator c with
          | false =>
              rw [List.takeWhile_cons_of_neg (by simp [hoperator]),
                List.takeWhile_cons_of_neg (by simp [hoperator])]
          | true =>
              rw [List.takeWhile_cons_of_pos hoperator] at h ⊢
              rw [List.takeWhile_cons_of_pos hoperator, isTight_of_isOperator hoperator,
                ih fun hmem => h (List.mem_cons_of_mem _ hmem)]

/-- Where no assignment stands there is none afterwards. -/
theorem here?_squeeze_spaceAssignments (h : Assignment.here? t = none) (tight : Bool) :
    Assignment.here? (squeeze tight (spaceAssignments t)) = none := by
  have htrim := trimStart_spaceAssignments h
  have hhead : (spaceAssignments (Text.trimStart t)).head?.any Text.isBlank = false := by
    rw [← htrim]
    exact Text.head?_trimStart _
  rw [Assignment.here?_eq_none_iff] at h ⊢
  rwa [trimStart_squeeze, ← squeeze_trimStart, htrim, ← squeeze_eq hhead false,
    takeWhile_squeeze_spaceAssignments h]

section Assignment

variable {a : Assignment} (ha : a.StandsAt t)

/-- A plain sign takes all blanks around it, so the two spaces are there again when squeezing
has taken one of them. -/
theorem arrange_plain (hrest : arrange true (spaceAssignments a.rest) = spaceAssignments a.rest)
    (hlead : a.lead = []) (tight : Bool) :
    arrange tight (a.spaced ++ spaceAssignments a.rest) = a.spaced ++ spaceAssignments a.rest := by
  have hsign : Text.isBlank '=' = false := rfl
  have hspace : Text.isBlank ' ' = true := rfl
  generalize spaceAssignments a.rest = behind at hrest ⊢
  obtain ⟨gap, hsqueeze, hblank⟩ : ∃ gap, squeeze tight (a.spaced ++ behind) =
      gap ++ '=' :: (gapBefore behind ++ squeeze true behind) ∧
        ∀ c ∈ gap, Text.isBlank c = true := by
    have hfront : squeeze true ('=' :: ' ' :: behind) =
        '=' :: (gapBefore behind ++ squeeze true behind) := by
      rw [squeeze_cons hsign, ← squeeze_false_blank hspace]
      rfl
    rw [Assignment.spaced_plain hlead]
    cases tight with
    | true => exact ⟨[], (squeeze_true_blank hspace _).trans hfront, by simp⟩
    | false =>
        refine ⟨[' '], (squeeze_false_blank hspace _).trans ?_, by simpa using hspace⟩
        exact congrArg ([' '] ++ ·) hfront
  have hstands : Assignment.StandsAt ⟨gap, [], gapBefore behind, squeeze true behind⟩
      (squeeze tight (a.spaced ++ behind)) := by
    refine ⟨hsqueeze, hblank, by simp, ?_, ?_, head?_squeeze_blank behind⟩
    · rw [takeWhile_gapBefore]
      exact List.not_mem_nil
    · dsimp only
      rw [gapBefore]
      split <;> simp [hspace]
  rw [arrange_eq, spaceAssignments_standsAt hstands, Assignment.spaced_plain rfl,
    Assignment.spaced_plain hlead]
  dsimp only
  rw [← arrange_eq, hrest]

include ha

/-- An operator run with its sign stays as it is, and so does a space in front of it. -/
theorem squeeze_assignment (hgap : a.gap = [] ∨ a.gap = [' '] ∧ tight = false) (s : Text) :
    squeeze tight (a.gap ++ (a.lead ++ '=' :: s)) =
      a.gap ++ (a.lead ++ '=' :: squeeze false s) := by
  have hrun : squeeze false (a.lead ++ '=' :: s) = a.lead ++ '=' :: squeeze false s := by
    have hlead := ha.lead
    generalize a.lead = lead at hlead
    induction lead with
    | nil => exact squeeze_cons rfl s
    | cons c lead ih =>
        have hc := hlead c (by simp)
        rw [List.cons_append, squeeze_cons (isBlank_of_isOperator hc), isTight_of_isOperator hc,
          ih fun d hd => hlead d (List.mem_cons_of_mem _ hd), List.cons_append]
  obtain ⟨c, rest, hfirst, hc⟩ : ∃ c rest, a.lead ++ '=' :: s = c :: rest ∧
      isOperator c = true := by
    cases hlead : a.lead with
    | nil => exact ⟨'=', s, rfl, rfl⟩
    | cons c lead => exact ⟨c, _, rfl, ha.lead c (by simp [hlead])⟩
  have hblank : (c :: rest).head?.any Text.isBlank = false := isBlank_of_isOperator hc
  have hmark : (c :: rest).head?.any isTight = false := isTight_of_isOperator hc
  rw [hfirst] at hrun ⊢
  rw [← hrun, squeeze_eq hblank]
  rcases hgap with hnil | ⟨hspace, rfl⟩
  · rw [hnil, List.nil_append, List.nil_append, squeeze_eq hblank]
  · rw [hspace, List.singleton_append, squeeze_false_blank rfl, gapBefore,
      Text.trimStart_of_head? hblank, if_neg (Bool.eq_false_iff.mp hmark)]

/-- The text behind a sign is squeezed apart from the sign, and its operator run stays. -/
theorem squeeze_trail (htrail : a.trail = [] ∨ a.trail = [' '] ∧ a.rest.head?.any isTight = false) :
    squeeze false (a.trail ++ spaceAssignments a.rest) =
        a.trail ++ squeeze true (spaceAssignments a.rest) ∧
      '=' ∉ (a.trail ++ squeeze true (spaceAssignments a.rest)).takeWhile isOperator := by
  rcases htrail with hnil | ⟨htrail, hmark⟩
  · have hlast := ha.last
    rw [hnil, List.nil_append] at hlast
    have hnone : Assignment.here? a.rest = none := by
      rwa [Assignment.here?_eq_none_iff, Text.trimStart_of_head? ha.rest]
    have hhead := head?_spaceAssignments_of_none ha.rest hnone
    rw [hnil, List.nil_append, List.nil_append, squeeze_eq hhead]
    refine ⟨rfl, ?_⟩
    rwa [← squeeze_eq hhead false, takeWhile_squeeze_spaceAssignments hlast]
  · rw [htrail, List.singleton_append, squeeze_false_blank rfl,
      gapBefore_spaceAssignments ha.rest hmark]
    refine ⟨rfl, ?_⟩
    rw [List.singleton_append, List.takeWhile_cons_of_neg (by decide)]
    exact List.not_mem_nil

/-- The sign of a comparison or a compound assignment keeps its surroundings. -/
theorem arrange_compound
    (hrest : arrange true (spaceAssignments a.rest) = spaceAssignments a.rest)
    (hlead : a.lead ≠ []) (hgap : a.gap = [] ∨ a.gap = [' '] ∧ tight = false)
    (htrail : a.trail = [] ∨ a.trail = [' '] ∧ a.rest.head?.any isTight = false) :
    arrange tight (a.spaced ++ spaceAssignments a.rest) = a.spaced ++ spaceAssignments a.rest := by
  obtain ⟨hbehind, hlast⟩ := squeeze_trail ha htrail
  have hsource : a.spaced ++ spaceAssignments a.rest =
      a.gap ++ (a.lead ++ '=' :: (a.trail ++ spaceAssignments a.rest)) := by
    rw [Assignment.spaced_compound hlead]
    simp
  have hsqueeze : squeeze tight (a.spaced ++ spaceAssignments a.rest) =
      a.gap ++ (a.lead ++ '=' :: (a.trail ++ squeeze true (spaceAssignments a.rest))) := by
    rw [hsource, squeeze_assignment ha hgap, hbehind]
  have hstands : Assignment.StandsAt
      ⟨a.gap, a.lead, a.trail, squeeze true (spaceAssignments a.rest)⟩
      (squeeze tight (a.spaced ++ spaceAssignments a.rest)) :=
    ⟨hsqueeze, ha.gap, ha.lead, hlast, ha.trail, head?_squeeze_blank _⟩
  rw [arrange_eq, spaceAssignments_standsAt hstands]
  exact congrArg (a.spaced ++ ·) hrest

end Assignment

/-- Spacing the equals signs undoes what squeezing does to them. -/
theorem arrange_spaceAssignments (h : Squeezed tight t) :
    arrange tight (spaceAssignments t) = spaceAssignments t := by
  fun_induction spaceAssignments t generalizing tight with
  | case1 => exact arrange_nil
  | case2 c t a hhere ih =>
      have ha := Assignment.standsAt_of_here? hhere
      obtain ⟨hgap, htrail, hrest⟩ := h.assignment ha
      by_cases hlead : a.lead = []
      · exact arrange_plain (ih hrest) hlead tight
      · exact arrange_compound ha (ih hrest) hlead hgap htrail
  | case3 c t hhere ih =>
      have hnone := here?_squeeze_spaceAssignments hhere tight
      rw [spaceAssignments_cons_none hhere] at hnone
      cases h with
      | char hc h =>
          rw [squeeze_cons hc] at hnone
          rw [arrange_eq, squeeze_cons hc, spaceAssignments_cons_none hnone, ← arrange_eq, ih h]
      | space hblank hmark h =>
          have hsqueeze : squeeze false (' ' :: spaceAssignments t) =
              ' ' :: squeeze true (spaceAssignments t) := by
            rw [squeeze_false_blank rfl, gapBefore_spaceAssignments hblank hmark,
              List.singleton_append]
          rw [hsqueeze] at hnone
          rw [arrange_eq, hsqueeze, spaceAssignments_cons_none hnone, ← arrange_eq, ih h]

/-- An arrangement stays as it is when it is arranged again. -/
theorem arrange_arrange (tight : Bool) (t : Text) :
    arrange tight (arrange tight t) = arrange tight t := by
  rw [arrange_eq tight t]
  exact arrange_spaceAssignments (.of_squeeze tight t)

end Again

/-! ## Blanks at the end -/

section End

variable {tight : Bool} {s t : Text}

theorem forall_blank_iff : (∀ c ∈ s, Text.isBlank c = true) ↔ inked s = [] := by
  simp [inked]

section Blanks

variable (hs : ∀ c ∈ s, Text.isBlank c = true)

include hs

theorem takeWhile_append_blanks (t : Text) :
    (t ++ s).takeWhile isOperator = t.takeWhile isOperator := by
  cases s with
  | nil => rw [List.append_nil]
  | cons c s => exact Text.takeWhile_append_cons (isOperator_of_isBlank (hs c (by simp))) t s

theorem here?_append_blanks (h : Assignment.here? t = none) : Assignment.here? (t ++ s) = none := by
  obtain ⟨u, htrim, hu⟩ := Text.exists_trimStart_append hs t
  rw [Assignment.here?_eq_none_iff] at h ⊢
  rwa [htrim, takeWhile_append_blanks hu]

theorem gapBefore_append_blanks (t : Text) : gapBefore (t ++ s) = gapBefore t := by
  obtain ⟨u, htrim, hu⟩ := Text.exists_trimStart_append hs t
  have hhead : (Text.trimStart (t ++ s)).head?.any isTight =
      (Text.trimStart t).head?.any isTight := by
    rw [htrim]
    cases Text.trimStart t with
    | cons c t => rfl
    | nil =>
        cases u with
        | nil => rfl
        | cons c u =>
            change isTight c = false
            rw [← Bool.not_eq_true]
            intro hmark
            have hc := hu c (by simp)
            rw [isBlank_of_isTight hmark] at hc
            cases hc
  rw [gapBefore, hhead, gapBefore]

theorem squeeze_append_blanks (tight : Bool) (t : Text) :
    ∃ u, squeeze tight (t ++ s) = squeeze tight t ++ u ∧ ∀ c ∈ u, Text.isBlank c = true := by
  induction t generalizing tight with
  | nil =>
      refine ⟨squeeze tight s, rfl, ?_⟩
      rw [forall_blank_iff] at hs ⊢
      rw [squeeze, inked_tighten, inked_collapseBlanks, hs]
  | cons c t ih =>
      rw [List.cons_append]
      cases hc : Text.isBlank c with
      | false =>
          obtain ⟨u, hsqueeze, hu⟩ := ih (isTight c)
          exact ⟨u, by rw [squeeze_cons hc, squeeze_cons hc, hsqueeze, List.cons_append], hu⟩
      | true =>
          obtain ⟨u, hsqueeze, hu⟩ := ih true
          refine ⟨u, ?_, hu⟩
          cases tight with
          | true => rw [squeeze_true_blank hc, squeeze_true_blank hc, hsqueeze]
          | false =>
              rw [squeeze_false_blank hc, squeeze_false_blank hc, gapBefore_append_blanks hs,
                hsqueeze, List.append_assoc]

/-- Blanks at the end fall to the sign behind which nothing else stands. -/
theorem standsAt_append_trail {a : Assignment} (ha : a.StandsAt t) (hrest : a.rest = []) :
    Assignment.StandsAt { a with trail := a.trail ++ s } (t ++ s) where
  source := by
    rw [ha.source, hrest]
    simp
  gap := ha.gap
  lead := ha.lead
  last := by
    have hlast := ha.last
    rw [hrest, List.append_nil] at hlast ⊢
    rwa [takeWhile_append_blanks hs]
  trail := List.forall_mem_append.mpr ⟨ha.trail, hs⟩
  rest := ha.rest

theorem standsAt_append_rest {a : Assignment} (ha : a.StandsAt t) (hrest : a.rest ≠ []) :
    Assignment.StandsAt { a with rest := a.rest ++ s } (t ++ s) where
  source := by
    rw [ha.source]
    simp
  gap := ha.gap
  lead := ha.lead
  last := by
    rw [← List.append_assoc, takeWhile_append_blanks hs]
    exact ha.last
  trail := ha.trail
  rest := by
    have hhead := ha.rest
    obtain ⟨d, rest, hd⟩ := List.exists_cons_of_ne_nil hrest
    rw [hd] at hhead ⊢
    exact hhead

/-- More blanks behind a sign come to nothing, or they stay there. -/
theorem spaced_append_trail (a : Assignment) :
    ∃ u, Assignment.spaced { a with trail := a.trail ++ s } = a.spaced ++ u ∧
      ∀ c ∈ u, Text.isBlank c = true := by
  by_cases hlead : a.lead = []
  · refine ⟨[], ?_, by simp⟩
    rw [List.append_nil, Assignment.spaced_plain hlead]
    exact Assignment.spaced_plain hlead
  · refine ⟨s, ?_, hs⟩
    have hspaced : Assignment.spaced { a with trail := a.trail ++ s } =
        a.gap ++ (a.lead ++ '=' :: (a.trail ++ s)) := Assignment.spaced_compound hlead
    rw [hspaced, Assignment.spaced_compound hlead]
    simp

theorem spaceAssignments_append_blanks (t : Text) :
    ∃ u, spaceAssignments (t ++ s) = spaceAssignments t ++ u ∧ ∀ c ∈ u, Text.isBlank c = true := by
  fun_induction spaceAssignments t with
  | case1 =>
      refine ⟨spaceAssignments s, rfl, ?_⟩
      rw [forall_blank_iff] at hs ⊢
      rw [inked_spaceAssignments, hs]
  | case2 c t a hhere ih =>
      have ha := Assignment.standsAt_of_here? hhere
      by_cases hrest : a.rest = []
      · obtain ⟨u, hspaced, hu⟩ := spaced_append_trail hs a
        refine ⟨u, ?_, hu⟩
        rw [spaceAssignments_standsAt (standsAt_append_trail hs ha hrest), hspaced]
        simp [hrest, spaceAssignments_nil]
      · obtain ⟨u, hspaced, hu⟩ := ih
        refine ⟨u, ?_, hu⟩
        rw [spaceAssignments_standsAt (standsAt_append_rest hs ha hrest), hspaced,
          List.append_assoc]
        rfl
  | case3 c t hhere ih =>
      obtain ⟨u, hspaced, hu⟩ := ih
      refine ⟨u, ?_, hu⟩
      have hnone : Assignment.here? (c :: (t ++ s)) = none := here?_append_blanks hs hhere
      rw [List.cons_append, spaceAssignments_cons_none hnone, hspaced, List.cons_append]

end Blanks

/-- Blanks at the end of a text come to nothing but blanks at the end. -/
theorem trimEnd_arrange (tight : Bool) (t : Text) :
    Text.trimEnd (arrange tight t) = Text.trimEnd (arrange tight (Text.trimEnd t)) := by
  obtain ⟨blanks, hsplit, hblanks⟩ := Text.exists_trimEnd t
  obtain ⟨u, hsqueeze, hu⟩ := squeeze_append_blanks hblanks tight (Text.trimEnd t)
  obtain ⟨v, hspaced, hv⟩ := spaceAssignments_append_blanks hu (squeeze tight (Text.trimEnd t))
  rw [arrange_eq tight t, hsplit, hsqueeze, hspaced, Text.trimEnd_append_of_blank hv, ← hsplit,
    arrange_eq]

end End

/-! ## The dense form of a dense text -/

/-- What is arranged and trimmed stays as it is when that is done again. -/
theorem trim_arrange_trim (t : Text) :
    Text.trim (arrange false (Text.trim (arrange false t))) = Text.trim (arrange false t) := by
  generalize hw : arrange false t = w
  have hself : arrange false w = w := by rw [← hw, arrange_arrange]
  calc Text.trim (arrange false (Text.trim w))
      = Text.trimEnd (Text.trimStart (arrange false (Text.trimStart (Text.trimEnd w)))) := by
        rw [Text.trim, Text.trim, Text.trimEnd_trimStart w]
    _ = Text.trimStart (Text.trimEnd (arrange false (Text.trimEnd w))) := by
        rw [← trimStart_arrange, Text.trimEnd_trimStart]
    _ = Text.trimStart (Text.trimEnd (arrange false w)) := by rw [← trimEnd_arrange]
    _ = Text.trim w := by rw [hself, ← Text.trimEnd_trimStart, Text.trim]

/-- The dense form of a dense text in which no clause begins is the text itself. -/
theorem normalize_normalize {t : Text} (h : ∀ keyword ∈ clauseKeywords, ∀ front back,
    normalize t = front ++ back → ¬BeginsClause keyword front back) :
    normalize (normalize t) = normalize t := by
  have hkept := dropAllClauses_eq_self h
  have hnormalize (s : Text) : normalize s = Text.trim (arrange false (dropAllClauses s)) := rfl
  rw [hnormalize (normalize t), hkept, hnormalize, trim_arrange_trim]

/-- A member whose comparison is followed by an assignment, behind an import clause. -/
theorem normalize_normalize_doubled :
    let t := "import a.b;class A \x7bboolean x=y ==\n= z ; int n=-1 ;\x7d".toList
    normalize t = "class A\x7bboolean x = y ==  = z;int n = -1;\x7d".toList ∧
      normalize (normalize t) = normalize t := by
  have hdense : normalize "import a.b;class A \x7bboolean x=y ==\n= z ; int n=-1 ;\x7d".toList =
      "class A\x7bboolean x = y ==  = z;int n = -1;\x7d".toList := by
    decide +kernel
  refine ⟨hdense, normalize_normalize fun keyword hkeyword front back hsplit hbegins => ?_⟩
  -- the letter p is in both keywords, and the dense text has none
  obtain ⟨-, blank, rest, rfl, -⟩ := hbegins
  have hletter : ∀ word ∈ clauseKeywords, 'p' ∈ word := by decide
  have hmem : 'p' ∈ front ++ (keyword ++ blank :: rest) := by simp [hletter keyword hkeyword]
  rw [← hsplit, hdense] at hmem
  exact absurd hmem (by decide)

end Source

end ClassDiagram
