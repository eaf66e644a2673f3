import ClassDiagram.Member.Record
import ClassDiagram.Proofs.Member.Annotation

/-!
# What stands in front of a brace

The text in front of a brace between members decides what the brace encloses, and the text in
front of a semicolon decides whether a method or a field ends there. An assignment in front of
the first parenthesis makes a value of the block, and it stays one however much text follows
(`assignsFirst_append`). A parenthesis without an assignment makes a method.
-/

namespace ClassDiagram

namespace Text

/-- A text includes a needle if the needle stands somewhere in it. -/
theorem includes_iff {t needle : Text} : includes t needle = true ↔ needle <:+: t := by
  induction t with
  | nil =>
      cases needle with
      | nil => simp [includes, cut?]
      | cons c needle => simp [includes, cut?]
  | cons c t ih =>
      rw [List.infix_cons_iff, ← ih, includes, cut?]
      cases hfront : dropPrefix? needle (c :: t) with
      | some rest =>
          have hstart : needle <+: c :: t := ⟨rest, (dropPrefix?_eq_some_iff.mp hfront).symm⟩
          simp [hstart]
      | none =>
          have hstart : ¬needle <+: c :: t := by
            rintro ⟨rest, hrest⟩
            rw [dropPrefix?_eq_some_iff.mpr hrest.symm] at hfront
            cases hfront
          simp [hstart, includes]

/-- A character that is no blank is not trimmed. -/
theorem mem_trim {t : Text} {c : Char} (hc : c ∈ t) (hsolid : isBlank c = false) : c ∈ trim t := by
  obtain ⟨front, behind, rfl⟩ := List.append_of_mem hc
  have htrim := trim_around (s := [c]) (by simpa using hsolid) (by simpa using hsolid) (by simp)
    front behind
  rw [List.singleton_append] at htrim
  rw [htrim]
  simp

theorem mem_trimStart {t : Text} {c : Char} (hc : c ∈ t) (hsolid : isBlank c = false) :
    c ∈ trimStart t := by
  obtain ⟨blanks, hsplit, -⟩ := exists_trimEnd (trimStart t)
  rw [hsplit]
  exact List.mem_append_left _ (mem_trim hc hsolid)

end Text

namespace Member

/-! ## More text behind -/

section Append

variable {t : Text}

theorem splitGroup_snd_append (depth : Nat) (h : (splitGroup depth t).2 ≠ []) (u : Text) :
    (splitGroup depth (t ++ u)).2 = (splitGroup depth t).2 ++ u := by
  induction t generalizing depth with
  | nil => exact absurd rfl h
  | cons c t ih =>
      rw [List.cons_append, splitGroup, splitGroup]
      rw [splitGroup] at h
      split at h
      · rename_i hclose
        rw [if_pos hclose, if_pos hclose]
      · rename_i hclose
        rw [if_neg hclose, if_neg hclose]
        exact ih _ h

/-- A name runs up to a blank or a parenthesis. -/
def endsName (c : Char) : Bool := Text.isBlank c || c == '('

theorem afterMark_group {group : Text} (h : t.dropWhile (!endsName ·) = '(' :: group) :
    afterMark t = (splitGroup 0 group).2 := by
  rw [afterMark]
  split
  · rename_i heq
    cases heq.symm.trans h
    rfl
  · rename_i hnone
    exact absurd h (hnone group)

theorem afterMark_name (h : (t.dropWhile (!endsName ·)).head? ≠ some '(') :
    afterMark t = t.dropWhile (!endsName ·) := by
  rw [afterMark]
  split
  · rename_i heq
    exact absurd (congrArg List.head? heq) h
  · rfl

/-- More text behind the tail of an annotation belongs to the tail. -/
theorem afterMark_append (h : afterMark t ≠ []) (u : Text) :
    afterMark (t ++ u) = afterMark t ++ u := by
  have hdrop : t.dropWhile (!endsName ·) ≠ [] := by
    intro hnil
    rw [afterMark_name (by rw [hnil]; simp), hnil] at h
    exact h rfl
  have hmore : (t ++ u).dropWhile (!endsName ·) = t.dropWhile (!endsName ·) ++ u := by
    rw [List.dropWhile_append, if_neg (by simpa using hdrop)]
  cases hrest : t.dropWhile (!endsName ·) with
  | nil => exact absurd hrest hdrop
  | cons c rest =>
      rw [hrest] at hmore
      by_cases hc : c = '('
      · subst hc
        rw [afterMark_group hrest] at h ⊢
        exact (afterMark_group hmore).trans (splitGroup_snd_append 0 h u)
      · rw [afterMark_name (by rw [hmore]; simpa using hc),
          afterMark_name (by rw [hrest]; simpa using hc), hmore, hrest]

theorem dropAnnotations_nil : dropAnnotations [] = [] :=
  dropAnnotations_of_head? (by simp [Text.trimStart])

theorem dropAnnotations_trimStart (t : Text) :
    dropAnnotations (Text.trimStart t) = dropAnnotations t := by
  rw [dropAnnotations.eq_def (Text.trimStart t), dropAnnotations.eq_def t, Text.trimStart_trimStart]

/-- More text behind a member does not change the annotations in front of it. -/
theorem dropAnnotations_append (h : dropAnnotations t ≠ []) (u : Text) :
    dropAnnotations (t ++ u) = dropAnnotations t ++ u := by
  fun_induction dropAnnotations t with
  | case1 t rest hmark ih =>
      have htail : afterMark rest ≠ [] := by
        intro hnil
        rw [hnil, dropAnnotations_nil] at h
        exact h rfl
      rw [← dropAnnotations_trimStart, Text.trimStart_append (by simp [hmark]), hmark,
        List.cons_append, dropAnnotations_mark, afterMark_append htail, ih h]
  | case2 t hplain =>
      have hmore := Text.trimStart_append h u
      rw [dropAnnotations_of_head?, hmore]
      intro hmark
      obtain ⟨rest, hrest⟩ := List.head?_eq_some_iff.mp hmark
      cases hstart : Text.trimStart t with
      | nil => exact h hstart
      | cons c start =>
          rw [hmore, hstart] at hrest
          obtain ⟨rfl, -⟩ := List.cons.inj hrest
          exact hplain start hstart

end Append

/-! ## Assignments and parentheses -/

section Kind

variable {t : Text}

theorem assignsFirst_iff :
    assignsFirst t = true ↔ " = ".toList <:+: (dropAnnotations t).takeWhile (· != '(') := by
  rw [assignsFirst, Text.includes_iff]

/-- An assignment stays in front of all parentheses that follow it. -/
theorem assignsFirst_append (h : assignsFirst t = true) (u : Text) :
    assignsFirst (t ++ u) = true := by
  rw [assignsFirst_iff] at h ⊢
  have hne : dropAnnotations t ≠ [] := by
    intro hnil
    rw [hnil] at h
    exact absurd (List.infix_nil.mp h) (by decide)
  have hfront : (dropAnnotations t).takeWhile (· != '(') <+:
      (dropAnnotations t ++ u).takeWhile (· != '(') := by
    rw [List.takeWhile_append]
    split
    · exact (List.takeWhile_prefix _).trans (List.prefix_append _ _)
    · exact List.prefix_refl _
  rw [dropAnnotations_append hne]
  exact h.trans hfront.isInfix

/-- A mark in front of a block makes it no initializer. -/
theorem opensInitializer_of_mem {c : Char} (hc : c ∈ dropAnnotations t)
    (hsolid : Text.isBlank c = false) (hstatic : c ∉ "static".toList) :
    opensInitializer t = false := by
  have hmem : c ∈ Text.trim (dropAnnotations t) := Text.mem_trim hc hsolid
  rw [opensInitializer, Bool.or_eq_false_iff, List.isEmpty_eq_false_iff, beq_eq_false_iff_ne]
  exact ⟨List.ne_nil_of_mem hmem, fun heq => hstatic (heq ▸ hmem)⟩

/-- A block behind an assignment is the value of a field. -/
theorem opened_of_assignsFirst (h : assignsFirst t = true) : Enclosure.opened t = .fieldValue := by
  have hequals : '=' ∈ dropAnnotations t :=
    (List.takeWhile_sublist _).mem ((assignsFirst_iff.mp h).subset (by decide))
  rw [Enclosure.opened, opensInitializer_of_mem hequals rfl (by decide), h]
  rfl

/-- What a block behind a text is follows from the text alone. -/
theorem opened_cases (t : Text) :
    (Enclosure.opened t = .initializer ∧ opensInitializer t = true) ∨
      (Enclosure.opened t = .fieldValue ∧ assignsFirst t = true) ∨
        Enclosure.opened t = .method := by
  rw [Enclosure.opened]
  cases opensInitializer t with
  | true => exact .inl ⟨rfl, rfl⟩
  | false =>
      cases assignsFirst t with
      | true => exact .inr (.inl ⟨rfl, rfl⟩)
      | false => exact .inr (.inr rfl)

theorem dropAnnotations_of_not_mem (hmark : '@' ∉ t) : dropAnnotations t = Text.trimStart t := by
  refine dropAnnotations_of_head? fun hhead => hmark ?_
  exact (List.dropWhile_sublist _).mem (List.mem_of_head? hhead)

theorem assignsFirst_of_not_infix (hmark : '@' ∉ t) (h : ¬" = ".toList <:+: t) :
    assignsFirst t = false := by
  rw [Bool.eq_false_iff]
  intro hassigns
  rw [assignsFirst_iff, dropAnnotations_of_not_mem hmark] at hassigns
  exact h (hassigns.trans
    ((List.takeWhile_prefix _).isInfix.trans (List.dropWhile_suffix _).isInfix))

/-- An assignment behind text without parentheses is the first. -/
theorem assignsFirst_assignment (hmark : '@' ∉ t) (hparen : '(' ∉ t)
    (hsolid : ∃ c ∈ t, Text.isBlank c = false) : assignsFirst (t ++ " = ".toList) = true := by
  obtain ⟨c, hc, hblank⟩ := hsolid
  have hne : Text.trimStart t ≠ [] := List.ne_nil_of_mem (Text.mem_trimStart hc hblank)
  have hparens : '(' ∉ Text.trimStart t := fun hmem => hparen ((List.dropWhile_sublist _).mem hmem)
  have hall : ∀ d ∈ Text.trimStart t ++ " = ".toList, (d != '(') = true :=
    List.forall_mem_append.mpr
      ⟨fun d hd => bne_iff_ne.mpr fun heq => hparens (heq ▸ hd), Text.forall_mem_of_all rfl⟩
  have htaken := Text.takeWhile_stretch (t := []) hall rfl
  rw [List.append_nil] at htaken
  rw [assignsFirst_iff, dropAnnotations_of_not_mem (by simpa using hmark),
    Text.trimStart_append hne, htaken]
  exact (List.suffix_append _ _).isInfix

theorem isSignature_of_not_mem (hmark : '@' ∉ t) (hparen : '(' ∉ t) : isSignature t = false := by
  have hnone : (Text.trimStart t).contains '(' = false := by
    rw [← Bool.not_eq_true, List.contains_iff_mem]
    exact fun hmem => hparen ((List.dropWhile_sublist _).mem hmem)
  rw [isSignature, dropAnnotations_of_not_mem hmark, hnone, Bool.false_and]

section Method

variable (hmark : '@' ∉ t) (hparen : '(' ∈ t) (h : ¬" = ".toList <:+: t)

include hmark hparen h

theorem isSignature_of_paren : isSignature t = true := by
  have hmem : '(' ∈ Text.trimStart t := Text.mem_trimStart hparen rfl
  rw [isSignature, dropAnnotations_of_not_mem hmark, List.contains_iff_mem.mpr hmem,
    assignsFirst_of_not_infix hmark h]
  rfl

/-- A block behind a parenthesis without an assignment is the body of a method. -/
theorem opened_of_paren : Enclosure.opened t = .method := by
  have hmem : '(' ∈ dropAnnotations t := by
    rw [dropAnnotations_of_not_mem hmark]
    exact Text.mem_trimStart hparen rfl
  rw [Enclosure.opened, opensInitializer_of_mem hmem rfl (by decide),
    assignsFirst_of_not_infix hmark h]
  rfl

end Method

end Kind

end Member

end ClassDiagram
