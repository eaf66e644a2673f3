import ClassDiagram.Proofs.Source.Split

/-!
# What a dense text has lost

The dense form of a text keeps all of its characters but blanks and clauses
(`inked_normalize`). Clauses are searched for in the whole text, and a quote in front of one
hides it no more than any other mark. So a text loses nothing but blanks exactly if no clause
begins anywhere in it, inside literals or outside (`normalize_loses_nothing_iff`).
-/

namespace ClassDiagram.Source

/-- A clause begins between two parts of a text: its keyword stands there as a word of its
own, with a blank behind it and a semicolon further on. -/
def BeginsClause (keyword front back : Text) : Prop :=
  front.getLast?.any Text.isWordChar = false ∧
    ∃ blank rest, back = keyword ++ blank :: rest ∧ Text.isBlank blank = true ∧ ';' ∈ rest

section Clause

variable {keyword t after front back : Text} {before : Option Char}

/-- A clause reaches from its keyword through the first semicolon behind the blank. -/
theorem exists_of_afterClause? (h : afterClause? keyword before t = some after) :
    before.any Text.isWordChar = false ∧ ∃ blank gap,
      t = keyword ++ blank :: (gap ++ ';' :: after) ∧ Text.isBlank blank = true := by
  rw [afterClause?] at h
  split at h
  · cases h
  · rename_i hbefore
    refine ⟨by simpa using hbefore, ?_⟩
    split at h
    · rename_i blank rest hprefix
      split at h
      · rename_i hblank
        split at h
        · rename_i mark tail hdrop
          cases h
          have hmark : mark = ';' := by
            have hhead := List.head_dropWhile_not (· != ';') (l := rest) (by simp [hdrop])
            simpa [hdrop] using hhead
          have hsplit := List.takeWhile_append_dropWhile (p := (· != ';')) (l := rest)
          rw [hdrop, hmark] at hsplit
          refine ⟨blank, rest.takeWhile (· != ';'), ?_, hblank⟩
          rw [hsplit]
          exact Text.dropPrefix?_eq_some_iff.mp hprefix
        · cases h
      · cases h
    · cases h

theorem afterClause?_eq_none_iff :
    afterClause? keyword front.getLast? back = none ↔ ¬BeginsClause keyword front back := by
  constructor
  · rintro hnone ⟨hfront, blank, rest, rfl, hblank, hmark⟩
    have hrest : rest.dropWhile (· != ';') ≠ [] := by
      intro hnil
      have hsplit := List.takeWhile_append_dropWhile (p := (· != ';')) (l := rest)
      rw [hnil, List.append_nil] at hsplit
      rw [← hsplit] at hmark
      exact absurd (List.all_eq_true.mp List.all_takeWhile ';' hmark) (by decide)
    obtain ⟨mark, tail, hdrop⟩ := List.exists_cons_of_ne_nil hrest
    rw [afterClause?, if_neg (by simp [hfront]), Text.dropPrefix?_eq_some_iff.mpr rfl] at hnone
    dsimp only at hnone
    rw [if_pos hblank, hdrop] at hnone
    cases hnone
  · intro hbegins
    rw [Option.eq_none_iff_forall_ne_some]
    intro after hafter
    obtain ⟨hfront, blank, gap, rfl, hblank⟩ := exists_of_afterClause? hafter
    exact hbegins ⟨hfront, blank, _, rfl, hblank, by simp⟩

/-- A clause takes at least its semicolon with it. -/
theorem length_inked_afterClause? (h : afterClause? keyword before t = some after) :
    (inked after).length < (inked t).length := by
  obtain ⟨-, blank, gap, rfl, hblank⟩ := exists_of_afterClause? h
  have hmark : Text.isBlank ';' = false := rfl
  rw [inked_append, inked_blank hblank, inked_append, inked_cons hmark]
  simp only [List.length_append, List.length_cons]
  omega

end Clause

/-! ## A scan for clauses -/

/-- A scan that goes on somewhere behind each clause that it meets. -/
structure Cuts (keyword : Text) (scan : Option Char → Text → Text) : Prop extends
    Copies keyword scan where
  sublist : ∀ before t, (scan before t).Sublist t
  cut : ∀ before t after, afterClause? keyword before t = some after →
    (scan before t).Sublist after

theorem cuts_dropFirstClause (keyword : Text) : Cuts keyword (dropFirstClause keyword) where
  toCopies := copies_dropFirstClause keyword
  sublist := dropFirstClause_sublist keyword
  cut before t after h := by
    cases t with
    | nil => exact List.nil_sublist _
    | cons c t =>
        rw [dropFirstClause]
        simp only [h]
        exact List.Sublist.refl _

theorem cuts_dropClauses (keyword : Text) : Cuts keyword (dropClauses keyword) where
  toCopies := copies_dropClauses keyword
  sublist := dropClauses_sublist keyword
  cut before t after h := by
    cases t with
    | nil =>
        rw [dropClauses]
        exact List.nil_sublist _
    | cons c t =>
        rw [dropClauses]
        split
        · rename_i found hfound
          rw [h] at hfound
          cases hfound
          exact dropClauses_sublist keyword (some ';') after
        · rename_i hnone
          rw [h] at hnone
          cases hnone

namespace Cuts

variable {keyword : Text} {scan : Option Char → Text → Text}

theorem eq_self (h : Cuts keyword scan) (front : Text) {t : Text}
    (hnone : ∀ s u, t = s ++ u → ¬BeginsClause keyword (front ++ s) u) :
    scan front.getLast? t = t := by
  induction t generalizing front with
  | nil => exact h.nil _
  | cons c t ih =>
      have hhere : afterClause? keyword front.getLast? (c :: t) = none := by
        rw [afterClause?_eq_none_iff]
        simpa using hnone [] (c :: t) rfl
      have hrest := ih (front ++ [c]) fun s u hsplit => by
        rw [List.append_assoc]
        exact hnone (c :: s) u (by rw [hsplit, List.cons_append])
      rw [List.getLast?_concat] at hrest
      rw [h.cons _ _ _ hhere, hrest]

/-- A clause at the start of a text is lost. -/
theorem length_inked_lt_of_afterClause? (h : Cuts keyword scan) {before : Option Char}
    {t after : Text} (hafter : afterClause? keyword before t = some after) :
    (inked (scan before t)).length < (inked t).length := by
  have hscan : (inked (scan before t)).Sublist (inked after) := (h.cut _ _ _ hafter).filter _
  exact Nat.lt_of_le_of_lt hscan.length_le (length_inked_afterClause? hafter)

/-- A clause anywhere in a text is lost, or it begins in one that is lost. -/
theorem length_inked_lt (h : Cuts keyword scan) (front : Text) {s u : Text}
    (hbegins : BeginsClause keyword (front ++ s) u) :
    (inked (scan front.getLast? (s ++ u))).length < (inked (s ++ u)).length := by
  induction s generalizing front with
  | nil =>
      rw [List.append_nil] at hbegins
      have hsome : afterClause? keyword front.getLast? u ≠ none := by
        rw [Ne, afterClause?_eq_none_iff]
        exact not_not_intro hbegins
      obtain ⟨after, hafter⟩ := Option.ne_none_iff_exists'.mp hsome
      exact h.length_inked_lt_of_afterClause? hafter
  | cons c s ih =>
      cases hhere : afterClause? keyword front.getLast? (c :: s ++ u) with
      | some after => exact h.length_inked_lt_of_afterClause? hhere
      | none =>
          have hrest : (inked (scan (some c) (s ++ u))).length < (inked (s ++ u)).length := by
            have hmoved := ih (front ++ [c]) (by simpa using hbegins)
            rwa [List.getLast?_concat] at hmoved
          rw [List.cons_append] at hhere ⊢
          rw [h.cons _ _ _ hhere]
          cases hc : Text.isBlank c with
          | true => rwa [inked_blank hc, inked_blank hc]
          | false =>
              rw [inked_cons hc, inked_cons hc, List.length_cons, List.length_cons]
              omega

end Cuts

/-! ## The dense form -/

/-- Blanks apart, a dense text is its source without the clauses. -/
theorem inked_normalize (t : Text) : inked (normalize t) = inked (dropAllClauses t) := by
  have hnormalize : normalize t =
      Text.trimEnd (Text.trimStart (arrange false (dropAllClauses t))) := rfl
  rw [hnormalize, inked_trimEnd, inked_trimStart, inked_arrange]

theorem dropAllClauses_eq_self {t : Text}
    (h : ∀ keyword ∈ clauseKeywords, ∀ front back, t = front ++ back →
      ¬BeginsClause keyword front back) : dropAllClauses t = t := by
  have hpackage : dropFirstClause "package".toList none t = t :=
    (cuts_dropFirstClause _).eq_self [] (h _ (by decide))
  have himport : dropClauses "import".toList none t = t :=
    (cuts_dropClauses _).eq_self [] (h _ (by decide))
  rw [dropAllClauses, hpackage, himport]

/-- A clause of either sort anywhere in a text costs it characters. -/
theorem length_inked_dropAllClauses_lt {keyword front back : Text}
    (hkeyword : keyword ∈ clauseKeywords) (hbegins : BeginsClause keyword front back) :
    (inked (dropAllClauses (front ++ back))).length < (inked (front ++ back)).length := by
  have hpackage := cuts_dropFirstClause "package".toList
  have himport := cuts_dropClauses "import".toList
  have hless : (inked (dropAllClauses (front ++ back))).length ≤
      (inked (dropFirstClause "package".toList none (front ++ back))).length :=
    ((himport.sublist none _).filter _).length_le
  -- an import clause may be cut by a package clause in front of it, which is lost then itself
  by_cases hfirst : ∃ s u, front ++ back = s ++ u ∧ BeginsClause "package".toList s u
  · obtain ⟨s, u, hsplit, hfound⟩ := hfirst
    rw [hsplit] at hless ⊢
    exact Nat.lt_of_le_of_lt hless (hpackage.length_inked_lt [] hfound)
  · have hkept : dropFirstClause "package".toList none (front ++ back) = front ++ back :=
      hpackage.eq_self [] fun s u hsplit hfound => hfirst ⟨s, u, hsplit, hfound⟩
    have hkeyword : keyword = "import".toList := by
      rw [clauseKeywords, List.mem_cons, List.mem_singleton] at hkeyword
      rcases hkeyword with rfl | rfl
      · exact absurd ⟨front, back, rfl, hbegins⟩ hfirst
      · rfl
    rw [dropAllClauses, hkept]
    rw [hkeyword] at hbegins
    exact himport.length_inked_lt [] hbegins

/-- The dense form of a text has the characters of the text in their order, apart from blanks
and clauses. It loses nothing but blanks exactly if no keyword of a clause stands anywhere as a
word with a blank behind it and a semicolon further on, be it in a literal. -/
theorem normalize_loses_nothing_iff (t : Text) :
    inked (normalize t) = inked (dropAllClauses t) ∧
      (inked (normalize t) = inked t ↔
        ∀ keyword ∈ clauseKeywords, ∀ front back, t = front ++ back →
          ¬BeginsClause keyword front back) := by
  refine ⟨inked_normalize t, ?_⟩
  rw [inked_normalize]
  constructor
  · rintro hsame keyword hkeyword front back rfl hbegins
    have hlost := length_inked_dropAllClauses_lt hkeyword hbegins
    rw [hsame] at hlost
    exact Nat.lt_irrefl _ hlost
  · intro hnone
    rw [dropAllClauses_eq_self hnone]

end ClassDiagram.Source
