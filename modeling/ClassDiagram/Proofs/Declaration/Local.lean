import ClassDiagram.Proofs.Declaration.Annotated

/-!
# Headers and what stands behind them

A mention is decided in its run and by the mark that ends the run; what stands behind
the mark is only passed on. So a text falls at any mark into two that are searched one
after the other (`firstRun?_cut`), and a header stays where it is when the text behind its
brace changes, unless that text has to be searched for a keyword (`locate?_behind`).
-/

namespace ClassDiagram.Declaration

/-- A mention passes on what stands behind the mark that ends its run. -/
def Mention.Local (mention : Mention) : Prop :=
  ∀ before r c x, (∀ d ∈ r, endsRun d = false) → endsRun c = true →
    mention before (r ++ c :: x) = (mention before (r ++ [c])).map fun found => (found.1, x)

section Name

variable {name r : Text} {c : Char} (hname : ∀ d ∈ name, endsRun d = false)
  (hr : ∀ d ∈ r, endsRun d = false) (hc : endsRun c = true)

theorem upToBrace?_run (hr : ∀ d ∈ r, endsRun d = false) (hc : endsRun c = true) (x : Text) :
    upToBrace? (r ++ c :: x) = if c = '{' then some (r, x) else none := by
  have hrun : ∀ d ∈ r, (!endsRun d) = true := fun d hd => by rw [hr d hd]; rfl
  have hend : (c :: x).head?.any (fun d => !endsRun d) = false := by simp [hc]
  rw [upToBrace?, Text.dropWhile_stretch hrun hend, Text.takeWhile_stretch hrun hend]
  split
  · rename_i behind heq
    cases heq
    rw [if_pos rfl]
  · rename_i hne
    rw [if_neg]
    rintro rfl
    exact hne x rfl

include hname hc

theorem dropPrefix?_run (x : Text) :
    Text.dropPrefix? name (r ++ c :: x) = (Text.dropPrefix? name r).map (· ++ c :: x) := by
  induction name generalizing r with
  | nil => rfl
  | cons n name ih =>
      cases r with
      | nil =>
          have hne : n ≠ c := by
            rintro rfl
            rw [hname n (by simp)] at hc
            cases hc
          exact if_neg hne
      | cons d r =>
          rw [List.cons_append, Text.dropPrefix?, Text.dropPrefix?]
          split
          · exact ih fun e he => hname e (List.mem_cons_of_mem _ he)
          · rfl

end Name

/-- What is left of a run behind a name is a part of the run. -/
theorem run_of_dropPrefix? {name r rest : Text} (hr : ∀ d ∈ r, endsRun d = false)
    (h : Text.dropPrefix? name r = some rest) : ∀ d ∈ rest, endsRun d = false := by
  intro d hd
  apply hr
  rw [Text.dropPrefix?_eq_some_iff.mp h]
  exact List.mem_append_right _ hd

/-- The name behind one keyword. -/
def mentionBehind (name keyword : Text) : Mention := fun _ t =>
  match Text.dropPrefix? keyword t with
  | none => none
  | some rest =>
    (blanksThenName name keyword.getLast? rest).map fun (run, behind) => (keyword ++ run, behind)

theorem keywordMention_eq (name : Text) (before : Option Char) (t : Text) :
    keywordMention name before t =
      if before.any Text.isWordChar then none
      else typeKeywords.findSome? fun keyword => mentionBehind name keyword before t := rfl

section Local

variable {name : Text} (hname : ∀ d ∈ name, endsRun d = false)

include hname

theorem local_nameEnding : Mention.Local (nameEnding name) := by
  intro before r c x hr hc
  rw [nameEnding, nameEnding, dropPrefix?_run hname hc, dropPrefix?_run hname hc]
  cases hmatch : Text.dropPrefix? name r with
  | none => rfl
  | some rest =>
      have hrest := run_of_dropPrefix? hr hmatch
      have hhead : (rest ++ c :: x).head? = (rest ++ [c]).head? := by cases rest <;> rfl
      dsimp only [Option.map_some]
      rw [hhead, upToBrace?_run hrest hc, upToBrace?_run hrest hc]
      split
      · split <;> rfl
      · rfl

theorem local_blanksThenName : Mention.Local (blanksThenName name) := by
  intro before r c x hr hc
  induction r generalizing before with
  | nil =>
      have hblank : Text.isBlank c = false := by
        rw [← Bool.not_eq_true]
        intro hblank
        rw [endsRun_of_isBlank hblank] at hc
        cases hc
      rw [List.nil_append, List.nil_append, blanksThenName, blanksThenName,
        if_neg (by simp [hblank]), if_neg (by simp [hblank])]
      rfl
  | cons d r ih =>
      have hrest : ∀ e ∈ r, endsRun e = false := fun e he => hr e (List.mem_cons_of_mem _ he)
      rw [List.cons_append, List.cons_append, blanksThenName, blanksThenName, ih _ hrest,
        local_nameEnding hname _ _ _ _ hrest hc]
      split
      · cases blanksThenName name (some d) (r ++ [c]) with
        | none =>
            cases nameEnding name (some d) (r ++ [c]) with
            | none => rfl
            | some found => rfl
        | some found => rfl
      · rfl

theorem local_nameMention : Mention.Local (nameMention name) := by
  intro before r c x hr hc
  have hhead : (r ++ c :: x).head? = (r ++ [c]).head? := by cases r <;> rfl
  rw [nameMention, nameMention, hhead, local_nameEnding hname _ _ _ _ hr hc]
  split <;> rfl

theorem local_mentionBehind {keyword : Text} (hkeyword : ∀ d ∈ keyword, endsRun d = false) :
    Mention.Local (mentionBehind name keyword) := by
  intro before r c x hr hc
  rw [mentionBehind, mentionBehind, dropPrefix?_run hkeyword hc, dropPrefix?_run hkeyword hc]
  cases hmatch : Text.dropPrefix? keyword r with
  | none => rfl
  | some rest =>
      dsimp only [Option.map_some]
      rw [local_blanksThenName hname _ _ _ _ (run_of_dropPrefix? hr hmatch) hc, Option.map_map,
        Option.map_map]
      rfl

theorem local_keywordMention : Mention.Local (keywordMention name) := by
  intro before r c x hr hc
  have hword : ∀ keyword ∈ typeKeywords, ∀ d ∈ keyword, endsRun d = false :=
    fun keyword hkeyword d hd => endsRun_of_isWordChar ((isWord_of_typeKeyword hkeyword).2 d hd)
  rw [keywordMention_eq, keywordMention_eq]
  split
  · rfl
  · generalize typeKeywords = keywords at hword
    induction keywords with
    | nil => rfl
    | cons keyword keywords ih =>
        rw [List.findSome?_cons, List.findSome?_cons,
          local_mentionBehind hname (hword keyword (by simp)) before r c x hr hc,
          ih fun other hother => hword other (List.mem_cons_of_mem _ hother)]
        cases mentionBehind name keyword before (r ++ [c]) with
        | none => rfl
        | some found => rfl

end Local

/-! ## Runs -/

section Run

variable {mention : Mention} (hlocal : Mention.Local mention)

include hlocal

theorem local_lastMention? : Mention.Local (lastMention? mention) := by
  intro before r c x hr hc
  induction r generalizing before with
  | nil =>
      rw [List.nil_append, List.nil_append, lastMention?_mark hc, lastMention?_mark hc]
      exact hlocal before [] c x hr hc
  | cons d r ih =>
      have hrest : ∀ e ∈ r, endsRun e = false := fun e he => hr e (List.mem_cons_of_mem _ he)
      have hd := hr d (by simp)
      have hmention := hlocal before (d :: r) c x hr hc
      rw [List.cons_append, List.cons_append] at hmention ⊢
      rw [lastMention?_cons hd, lastMention?_cons hd, ih _ hrest, hmention]
      cases lastMention? mention (some d) (r ++ [c]) with
      | none =>
          cases mention before (d :: (r ++ [c])) with
          | none => rfl
          | some found => rfl
      | some found => rfl

variable (hreads : Mention.Reads mention)

include hreads

/-- At a mark a text falls into two that are searched one after the other. -/
theorem firstRun?_cut {c : Char} (hc : endsRun c = true) (s t : Text) :
    firstRun? mention (s ++ c :: t) =
      ((firstRun? mention (s ++ [c])).map fun found =>
        { found with behind := found.behind ++ t }).or
      ((firstRun? mention t).map fun found => { found with before := s ++ c :: found.before }) := by
  have hnil : firstRun? mention [] = none := by
    cases hfound : firstRun? mention [] with
    | none => rfl
    | some header =>
        have hsource := source_firstRun? hreads hfound
        simp [Header.source] at hsource
  induction hlength : s.length using Nat.strongRecOn generalizing s with
  | ind n ih =>
      rcases run_or_split s with hrun | ⟨run, mark, rest, rfl, hrun, hmark⟩
      · have hlast := local_lastMention? hlocal none s c t hrun hc
        cases hfound : lastMention? mention none (s ++ [c]) with
        | some found =>
            obtain ⟨run, behind⟩ := found
            rw [hfound] at hlast
            have hempty : behind = [] := by
              have hself := local_lastMention? hlocal none s c [] hrun hc
              rw [hfound] at hself
              exact congrArg Prod.snd (Option.some.inj hself)
            rw [firstRun?_of_some hlast, firstRun?_of_some hfound, hempty]
            rfl
        | none =>
            rw [hfound] at hlast
            rw [firstRun?_of_none hrun hc hlast, firstRun?_of_none hrun hc hfound, hnil]
            rfl
      · have hlt : rest.length < n := by
          rw [List.length_append, List.length_cons] at hlength
          omega
        have hrest := ih rest.length hlt rest rfl
        have hfirst := local_lastMention? hlocal none run mark (rest ++ c :: t) hrun hmark
        have hsecond := local_lastMention? hlocal none run mark (rest ++ [c]) hrun hmark
        rw [List.append_assoc, List.append_assoc, List.cons_append, List.cons_append]
        cases hfound : lastMention? mention none (run ++ [mark]) with
        | some found =>
            rw [hfound] at hfirst hsecond
            rw [firstRun?_of_some hfirst, firstRun?_of_some hsecond]
            simp
        | none =>
            rw [hfound] at hfirst hsecond
            rw [firstRun?_of_none hrun hmark hfirst, firstRun?_of_none hrun hmark hsecond, hrest,
              Option.map_or, Option.map_map, Option.map_map, Option.map_map]
            simp [Function.comp_def]

theorem firstRun?_cut_eq_none_iff {c : Char} (hc : endsRun c = true) (s t : Text) :
    firstRun? mention (s ++ c :: t) = none ↔
      firstRun? mention (s ++ [c]) = none ∧ firstRun? mention t = none := by
  rw [firstRun?_cut hlocal hreads hc, Option.or_eq_none_iff, Option.map_eq_none_iff,
    Option.map_eq_none_iff]

/-- A header found by a mention stays where it is whatever stands behind its brace. -/
theorem firstRun?_behind {t : Text} {header : Header} (h : firstRun? mention t = some header)
    (y : Text) :
    firstRun? mention (header.before ++ header.run ++ '{' :: y) =
      some { header with behind := y } := by
  have hsource := source_firstRun? hreads h
  rw [← hsource, Header.source, firstRun?_cut hlocal hreads rfl, Option.or_eq_some_iff] at h
  rcases h with h | ⟨-, h⟩
  · obtain ⟨found, hfound, heq⟩ := Option.map_eq_some_iff.mp h
    have hbehind : found.behind = [] := by
      have hlength := congrArg (fun header => header.behind.length) heq
      simpa using hlength
    rw [firstRun?_cut hlocal hreads rfl, hfound, Option.map_some, Option.some_or, hbehind, ← heq]
    rfl
  · obtain ⟨found, -, heq⟩ := Option.map_eq_some_iff.mp h
    have hlength := congrArg (fun header => header.before.length) heq
    simp only [List.length_append, List.length_cons] at hlength
    omega

end Run

/-- A header stays where it is when another text stands behind its brace, unless the
keyword of its type is to be found there. -/
theorem Header.locate?_behind {t name : Text} {header : Header}
    (hname : ∀ d ∈ name, endsRun d = false) (h : Header.locate? t name = some header) {y : Text}
    (hy : firstRun? (keywordMention name) header.behind = none →
      firstRun? (keywordMention name) y = none) :
    Header.locate? (header.before ++ header.run ++ '{' :: y) name =
      some { header with behind := y } := by
  have hsource := Header.source_locate? h
  rw [Header.locate?, Option.or_eq_some_iff] at h ⊢
  rcases h with h | ⟨hnone, h⟩
  · exact .inl (firstRun?_behind (local_keywordMention hname) (reads_keywordMention name) h y)
  · refine .inr ⟨?_, firstRun?_behind (local_nameMention hname) (reads_nameMention name) h y⟩
    rw [← hsource, Header.source, firstRun?_cut_eq_none_iff (local_keywordMention hname)
      (reads_keywordMention name) rfl] at hnone
    exact (firstRun?_cut_eq_none_iff (local_keywordMention hname) (reads_keywordMention name) rfl
      _ _).mpr ⟨hnone.1, hy hnone.2⟩

/-! ## Annotations in front of a run -/

section Keyword

variable {name front t : Text}

/-- A front without marks and without a mention of its own hides no mention behind it. -/
theorem firstRun?_front_eq_none (hfront : ∀ d ∈ front, endsRun d = false)
    (hlast : lastMention? (keywordMention name) none t = none →
      lastMention? (keywordMention name) none (front ++ t) = none)
    (h : firstRun? (keywordMention name) t = none) :
    firstRun? (keywordMention name) (front ++ t) = none := by
  have hmissing : lastMention? (keywordMention name) none t = none := by
    cases hfound : lastMention? (keywordMention name) none t with
    | none => rfl
    | some found =>
        obtain ⟨run, behind⟩ := found
        rw [firstRun?_of_some hfound] at h
        cases h
  have hnone := hlast hmissing
  have hjoined {run : Text} (hrun : ∀ d ∈ run, endsRun d = false) :
      ∀ d ∈ front ++ run, endsRun d = false := by
    intro d hd
    rcases List.mem_append.mp hd with hd | hd
    · exact hfront d hd
    · exact hrun d hd
  rcases run_or_split t with hrun | ⟨run, mark, rest, rfl, hrun, hmark⟩
  · exact firstRun?_of_run (hjoined hrun) hnone
  · rw [firstRun?_of_none hrun hmark hmissing, Option.map_eq_none_iff] at h
    rw [← List.append_assoc] at hnone ⊢
    rw [firstRun?_of_none (hjoined hrun) hmark hnone, h]
    rfl

/-- Blanks have no mention in them. -/
theorem firstRun?_trimStart_eq_none (h : firstRun? (keywordMention name) t = none) :
    firstRun? (keywordMention name) (Text.trimStart t) = none := by
  by_contra hfound
  have hblanks : ∀ c ∈ t.takeWhile Text.isBlank, Text.isBlank c = true :=
    List.all_eq_true.mp List.all_takeWhile
  have hlast : (t.takeWhile Text.isBlank).getLast?.any Text.isWordChar = false := by
    cases hend : (t.takeWhile Text.isBlank).getLast? with
    | none => rfl
    | some c =>
        exact Text.isWordChar_of_isBlank (hblanks c (List.mem_of_getLast? hend))
  have hne := firstRun?_front_ne_none (atMarks_keywordMention name)
    (fun c hc => endsRun_of_isBlank (hblanks c hc)) hlast hfound
  rw [Text.trimStart, List.takeWhile_append_dropWhile] at hne
  exact hne h

end Keyword

section Annotation

variable {type name gap t : Text} (hname : Text.IsWord name) (hgap : gap = [' '] ∨ gap = [])
  (h : firstRun? (keywordMention type) t = none)

include hname hgap h

theorem firstRun?_word_eq_none {w : Text} (hw : Text.IsWord w) :
    firstRun? (keywordMention type) (Source.annotationText name w ++ (gap ++ t)) = none := by
  rw [← List.append_assoc]
  exact firstRun?_front_eq_none (run_of_over (over_annotated_gap hname hw hgap) rfl)
    (lastMention?_annotated hname hw hgap) h

/-- The two braces of the argument end runs without a mention. -/
theorem firstRun?_braced_eq_none (htype : ∀ d ∈ type, endsRun d = false) {ws : List Text}
    (hws : ∀ w ∈ ws, Text.IsWord w) :
    firstRun? (keywordMention type)
      (Source.annotationText name (Source.braced .dense ws) ++ (gap ++ t)) = none := by
  have hlist : Text.Over [',', ' '] ([','].intercalate ws) :=
    Source.over_list .dense (by simp) (by simp) fun w hw => .of_word (hws w hw).2
  have hinner : ∀ c ∈ [','].intercalate ws, endsRun c = false := run_of_over hlist rfl
  have hsplit : Source.annotationText name (Source.braced .dense ws) ++ (gap ++ t) =
      Source.opening name ++ '{' :: ([','].intercalate ws ++ '}' :: (')' :: gap ++ t)) := by
    simp [Source.annotationText, Source.braced, Source.opening]
  have hopening (x : Text) :
      lastMention? (keywordMention type) none (Source.opening name ++ '{' :: x) = none := by
    have hbrace : lastMention? (keywordMention type) none ('{' :: x) = none := by
      rw [lastMention?_mark rfl, keywordMention_mark rfl]
    have hparen : lastMention? (keywordMention type) none (name ++ '(' :: '{' :: x) = none :=
      lastMention?_keyword_word hname.2 rfl rfl (lastMention?_keyword_mark rfl hbrace)
    have hname' : Source.opening name ++ '{' :: x = '@' :: (name ++ '(' :: '{' :: x) := by
      simp [Source.opening]
    rw [hname']
    exact lastMention?_keyword_mark rfl hparen
  have hlistend (x : Text) : lastMention? (keywordMention type) none
      ([','].intercalate ws ++ '}' :: x) = none := by
    cases hfound : lastMention? (keywordMention type) none ([','].intercalate ws ++ '}' :: x) with
    | none => rfl
    | some found =>
        obtain ⟨run, behind⟩ := found
        have hmark := lastMention?_run (clean_keywordMention htype) (reads_keywordMention type)
          hinner rfl hfound
        exact absurd hmark.1 (by decide)
  have hbehind : firstRun? (keywordMention type) (')' :: gap ++ t) = none := by
    refine firstRun?_front_eq_none ?_ ?_ h
    · rcases hgap with rfl | rfl <;> exact Text.forall_mem_of_all rfl
    · rcases hgap with rfl | rfl
      · exact fun h => lastMention?_keyword_mark rfl (lastMention?_keyword_mark rfl h)
      · exact fun h => lastMention?_keyword_mark rfl h
  rw [hsplit, firstRun?_of_none (run_of_over (over_opening hname) rfl) rfl (hopening _),
    firstRun?_of_none hinner rfl (hlistend _), hbehind]
  rfl

end Annotation

end ClassDiagram.Declaration
