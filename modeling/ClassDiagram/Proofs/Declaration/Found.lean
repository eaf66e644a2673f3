import ClassDiagram.Proofs.Declaration.Front
import ClassDiagram.Proofs.Source.Split

/-!
# Finding the header of a child

A child is named by the word behind the keyword of its type, and it is read by searching
that name in its own text, made dense once more. The search wants a word boundary behind
the name. So a child whose name ends in a word character is found, in a run in which the
keyword of a type stands directly in front of the name, provided no comment and no clause
begins in its header; and a child whose name ends in any other character, such as `B$`,
is not found (`SourceFile.header_of_child`).
-/

namespace ClassDiagram

namespace Declaration

/-! ## What a mention by the keyword tells -/

/-- The text has the keyword of a type and, behind blanks, the name, both as words. -/
def Declares (t name : Text) : Prop :=
  ∃ front keyword blanks behind, t = front ++ (keyword ++ (blanks ++ (name ++ behind))) ∧
    keyword ∈ typeKeywords ∧ blanks ≠ [] ∧ (∀ c ∈ blanks, Text.isBlank c = true) ∧
    front.getLast?.any Text.isWordChar = false ∧ behind.head?.any Text.isWordChar = false

section Shape

variable {name : Text} (hname : name.getLast?.any Text.isWordChar = true)

include hname

theorem exists_of_nameEnding {before : Option Char} {t run behind : Text}
    (h : nameEnding name before t = some (run, behind)) :
    ∃ tail, run = name ++ tail ∧ tail.head?.any Text.isWordChar = false := by
  rw [nameEnding] at h
  split at h
  · cases h
  · rename_i rest hmatch
    dsimp only at h
    split at h
    · rename_i hboundary
      obtain ⟨⟨tail, rest'⟩, hbrace, heq⟩ := Option.map_eq_some_iff.mp h
      cases heq
      refine ⟨tail, rfl, ?_⟩
      obtain ⟨c, hc⟩ : ∃ c, name.getLast? = some c := by
        cases hlast : name.getLast? with
        | none =>
            rw [hlast] at hname
            cases hname
        | some c => exact ⟨c, rfl⟩
      rw [hc] at hname
      have hword : Text.isWordChar c = true := hname
      rw [hc, Option.some_or, Text.isBoundary, Option.any_some, hword,
        append_of_upToBrace? hbrace] at hboundary
      cases tail with
      | nil => rfl
      | cons d tail => simpa using hboundary
    · cases h

theorem exists_of_blanksThenName {before : Option Char} {t run behind : Text}
    (h : blanksThenName name before t = some (run, behind)) :
    ∃ blanks tail, run = blanks ++ (name ++ tail) ∧ blanks ≠ [] ∧
      (∀ c ∈ blanks, Text.isBlank c = true) ∧ tail.head?.any Text.isWordChar = false := by
  induction t generalizing before run behind with
  | nil => cases h
  | cons c t ih =>
      rw [blanksThenName] at h
      split at h
      · rename_i hc
        split at h
        · rename_i run' behind' hmore
          cases h
          obtain ⟨blanks, tail, rfl, -, hblanks, htail⟩ := ih hmore
          exact ⟨c :: blanks, tail, rfl, List.cons_ne_nil _ _,
            List.forall_mem_cons.mpr ⟨hc, hblanks⟩, htail⟩
        · obtain ⟨⟨run', behind'⟩, hending, heq⟩ := Option.map_eq_some_iff.mp h
          cases heq
          obtain ⟨tail, rfl, htail⟩ := exists_of_nameEnding hname hending
          exact ⟨[c], tail, rfl, List.cons_ne_nil _ _, by simpa using hc, htail⟩
      · cases h

theorem exists_of_keywordMention {before : Option Char} {t run behind : Text}
    (h : keywordMention name before t = some (run, behind)) :
    before.any Text.isWordChar = false ∧ ∃ keyword blanks tail,
      run = keyword ++ (blanks ++ (name ++ tail)) ∧ keyword ∈ typeKeywords ∧ blanks ≠ [] ∧
      (∀ c ∈ blanks, Text.isBlank c = true) ∧ tail.head?.any Text.isWordChar = false := by
  rw [keywordMention] at h
  split at h
  · cases h
  · rename_i hbefore
    obtain ⟨keyword, hkeyword, h⟩ := List.exists_of_findSome?_eq_some h
    split at h
    · cases h
    · obtain ⟨⟨run', behind'⟩, hblanks, heq⟩ := Option.map_eq_some_iff.mp h
      cases heq
      obtain ⟨blanks, tail, rfl, hrest⟩ := exists_of_blanksThenName hname hblanks
      exact ⟨by simpa using hbefore, keyword, blanks, tail, rfl, hkeyword, hrest⟩

end Shape

/-- The last mention of a run is some mention in it. -/
theorem exists_of_lastMention? {mention : Mention} {before : Option Char} {t run behind : Text}
    (h : lastMention? mention before t = some (run, behind)) :
    ∃ front tail rest, run = front ++ tail ∧
      mention (front.getLast?.or before) rest = some (tail, behind) := by
  induction t generalizing before run behind with
  | nil => exact ⟨[], run, [], rfl, h⟩
  | cons c t ih =>
      cases hc : endsRun c with
      | true =>
          rw [lastMention?_mark hc] at h
          exact ⟨[], run, c :: t, rfl, h⟩
      | false =>
          rw [lastMention?_cons hc, Option.or_eq_some_iff] at h
          rcases h with h | ⟨-, h⟩
          · obtain ⟨⟨run', behind'⟩, hmore, heq⟩ := Option.map_eq_some_iff.mp h
            cases heq
            obtain ⟨front, tail, rest, rfl, hmention⟩ := ih hmore
            refine ⟨c :: front, tail, rest, rfl, ?_⟩
            rw [List.getLast?_cons]
            cases hlast : front.getLast? with
            | none =>
                rw [hlast] at hmention
                exact hmention
            | some d =>
                rw [hlast] at hmention
                exact hmention
          · exact ⟨[], run, c :: t, rfl, h⟩

theorem exists_of_firstRun? {mention : Mention} {t : Text} {header : Header}
    (h : firstRun? mention t = some header) :
    ∃ front tail rest, header.run = front ++ tail ∧
      mention front.getLast? rest = some (tail, header.behind) := by
  fun_induction firstRun? mention t generalizing header with
  | case1 t run behind hlast =>
      cases h
      obtain ⟨front, tail, rest, hrun, hmention⟩ := exists_of_lastMention? hlast
      rw [Option.or_none] at hmention
      exact ⟨front, tail, rest, hrun, hmention⟩
  | case2 => cases h
  | case3 t _ mark rest _ ih =>
      obtain ⟨found, hfound, rfl⟩ := Option.map_eq_some_iff.mp h
      obtain ⟨front, tail, rest, hrun⟩ := ih hfound
      exact ⟨front, tail, rest, hrun⟩

/-! ## Where a mention stands -/

theorem isWordChar_of_endsRun {c : Char} (h : endsRun c = true) : Text.isWordChar c = false := by
  rw [← Bool.not_eq_true]
  intro hword
  rw [endsRun_of_isWordChar hword] at h
  cases h

section Place

variable {mention : Mention}

/-- A mention anywhere in a text is enough for a run with one. -/
theorem firstRun?_ne_none_of_mention (hmarks : Mention.AtMarks mention) {t : Text} :
    ∀ {s : Text}, mention s.getLast? t ≠ none → firstRun? mention (s ++ t) ≠ none := by
  intro s
  induction hlength : s.length using Nat.strongRecOn generalizing s with
  | ind n ih =>
      intro h
      rcases run_or_split s with hs | ⟨run, mark, rest, rfl, hrun, hmark⟩
      · have hlast : lastMention? mention none (s ++ t) ≠ none :=
          lastMention?_ne_none hs (by rwa [Option.or_none])
        obtain ⟨⟨run, behind⟩, hfound⟩ := Option.ne_none_iff_exists'.mp hlast
        rw [firstRun?_of_some hfound]
        exact Option.some_ne_none _
      · have hrest : mention rest.getLast? t ≠ none := by
          rw [List.getLast?_append, List.getLast?_cons, Option.some_or] at h
          cases hlast : rest.getLast? with
          | none =>
              rw [hlast, Option.getD_none] at h
              rwa [← hmarks mark t (isWordChar_of_endsRun hmark)]
          | some d =>
              rw [hlast] at h
              exact h
        have hlt : rest.length < n := by
          rw [← hlength, List.length_append, List.length_cons]
          omega
        rw [List.append_assoc, List.cons_append]
        exact firstRun?_ne_none hrun hmark (ih rest.length hlt rfl hrest)

/-- Without a mention at any place no run has one. -/
theorem firstRun?_eq_none {t : Text} (h : ∀ s u before, t = s ++ u → mention before u = none) :
    firstRun? mention t = none := by
  have hlast (before : Option Char) {t : Text}
      (h : ∀ s u before, t = s ++ u → mention before u = none) :
      lastMention? mention before t = none := by
    induction t generalizing before with
    | nil => exact h [] [] before rfl
    | cons c t ih =>
        have hmention := h [] (c :: t) before rfl
        cases hc : endsRun c with
        | true => rw [lastMention?_mark hc, hmention]
        | false =>
            rw [lastMention?_cons hc, hmention,
              ih (some c) fun s u before hsplit => h (c :: s) u before (by rw [hsplit]; rfl)]
            rfl
  fun_induction firstRun? mention t with
  | case1 t run behind hfound =>
      rw [hlast none h] at hfound
      cases hfound
  | case2 => rfl
  | case3 t _ mark rest hmark ih =>
      rw [Option.map_eq_none_iff]
      refine ih fun s u before hsplit =>
        h ((t.takeWhile fun c => !endsRun c) ++ mark :: s) u before ?_
      rw [List.append_assoc, List.cons_append, ← hsplit, ← hmark, List.takeWhile_append_dropWhile]

end Place

/-- A text whose first mark is an opening brace is a run up to it. -/
theorem upToBrace?_ne_none {t : Text} (h : t.find? endsRun = some '{') : upToBrace? t ≠ none := by
  have hdrop : ∃ behind, (t.dropWhile fun c => !endsRun c) = '{' :: behind := by
    induction t with
    | nil => cases h
    | cons c t ih =>
        cases hc : endsRun c with
        | true =>
            rw [List.find?_cons_of_pos hc] at h
            cases h
            exact ⟨t, List.dropWhile_cons_of_neg (by simp [hc])⟩
        | false =>
            rw [List.find?_cons_of_neg (by simp [hc])] at h
            rw [List.dropWhile_cons_of_pos (by simp [hc])]
            exact ih h
  obtain ⟨behind, hdrop⟩ := hdrop
  rw [upToBrace?, hdrop]
  exact Option.some_ne_none _

/-! ## Names without a boundary behind them -/

/-- True if a word character stands directly behind the name somewhere in a text. -/
def runsOn (name : Text) : Text → Bool
  | [] => false
  | c :: t =>
    ((Text.dropPrefix? name (c :: t)).bind List.head?).any Text.isWordChar || runsOn name t

section Boundary

variable {name t : Text}

theorem head?_of_runsOn (hne : name ≠ []) (h : runsOn name t = false) {s u : Text}
    (ht : t = s ++ (name ++ u)) : u.head?.any Text.isWordChar = false := by
  induction t generalizing s with
  | nil =>
      have hnil := (List.append_eq_nil_iff.mp ht.symm).2
      exact absurd (List.append_eq_nil_iff.mp hnil).1 hne
  | cons c t ih =>
      rw [runsOn, Bool.or_eq_false_iff] at h
      cases s with
      | nil =>
          have hmatch : Text.dropPrefix? name (c :: t) = some u :=
            Text.dropPrefix?_eq_some_iff.mpr ht
          rw [hmatch] at h
          exact h.1
      | cons d s => exact ih h.2 (List.cons.inj ht).2

/-- A name with a mark as its last character, and no word character behind it, is
mentioned nowhere. -/
theorem locate?_eq_none (hne : name ≠ []) (hlast : name.getLast?.any Text.isWordChar = false)
    (hbehind : runsOn name t = false) : Header.locate? t name = none := by
  have hending {s u : Text} {before : Option Char} (ht : t = s ++ u) :
      nameEnding name before u = none := by
    rw [nameEnding]
    split
    · rfl
    · rename_i rest hmatch
      have hu := Text.dropPrefix?_eq_some_iff.mp hmatch
      subst hu
      have hhead := head?_of_runsOn hne hbehind ht
      dsimp only
      rw [if_neg]
      rw [List.getLast?_eq_some_getLast hne] at hlast ⊢
      rw [Option.some_or, Text.isBoundary, hlast, hhead]
      exact Bool.false_ne_true
  have hblanks {s u : Text} {before : Option Char} (ht : t = s ++ u) :
      blanksThenName name before u = none := by
    induction u generalizing s before with
    | nil => rfl
    | cons c u ih =>
        have htail : t = (s ++ [c]) ++ u := by rw [ht, List.append_assoc, List.singleton_append]
        rw [blanksThenName, ih htail, hending htail]
        simp
  have hkeyword : firstRun? (keywordMention name) t = none := by
    refine firstRun?_eq_none fun s u before ht => ?_
    rw [keywordMention]
    split
    · rfl
    · rw [List.findSome?_eq_none_iff]
      intro keyword _
      split
      · rfl
      · rename_i rest hmatch
        rw [Text.dropPrefix?_eq_some_iff.mp hmatch, ← List.append_assoc] at ht
        rw [hblanks ht]
        rfl
  have hname : firstRun? (nameMention name) t = none := by
    refine firstRun?_eq_none fun s u before ht => ?_
    rw [nameMention, hending ht, ite_self]
  rw [Header.locate?, hkeyword, hname]
  rfl

end Boundary

/-! ## The header of a child -/

/-- The text of a child up to its first brace. -/
def headerText (block : Text) : Text := block.takeWhile (· != '{')

/-- No comment and no clause begins in the header of a child, and no mark of a run stands
in it from the keyword of its type on. -/
structure Legible (header : Text) : Prop where
  kept : Source.isKept none header = true
  run : ∀ words ∈ fromKeywords (Text.words header), ∀ word ∈ words, ∀ c ∈ word, endsRun c = false

instance (header : Text) : Decidable (Legible header) :=
  decidable_of_iff (Source.isKept none header = true ∧
    ((fromKeywords (Text.words header)).all fun words =>
      words.all fun word => word.all fun c => !endsRun c) = true)
    ⟨fun h => ⟨h.1, by simpa using h.2⟩, fun h => ⟨h.kept, by simpa using h.run⟩⟩

theorem exists_of_fromKeywords {ws words : List Text} {more : List (List Text)}
    (h : fromKeywords ws = words :: more) :
    ∃ front keyword rest, ws = front ++ keyword :: rest ∧ words = keyword :: rest ∧
      keyword ∈ typeKeywords := by
  induction ws with
  | nil => cases h
  | cons w ws ih =>
      rw [fromKeywords] at h
      split at h
      · rename_i hkeyword
        obtain ⟨rfl, -⟩ := List.cons.inj h
        exact ⟨[], w, ws, rfl, rfl, List.contains_iff_mem.mp hkeyword⟩
      · obtain ⟨front, keyword, rest, rfl, hwords⟩ := ih h
        exact ⟨w :: front, keyword, rest, rfl, hwords⟩

/-- The name of a block stands behind the keyword of a type and blanks. The keyword stands
at the start or behind a blank, and the name ends in front of a blank, of generic
arguments or at the end. -/
theorem exists_of_declaredName {block name : Text} (h : declaredName block = .ok name) :
    ∃ front keyword gap behind, headerText block = front ++ (keyword ++ (gap ++ (name ++ behind))) ∧
      (front = [] ∨ ∃ u c, front = u ++ [c] ∧ Text.isBlank c = true) ∧ keyword ∈ typeKeywords ∧
      gap ≠ [] ∧ (∀ c ∈ gap, Text.isBlank c = true) ∧ name ≠ [] ∧
      behind.head?.any Text.isWordChar = false ∧
      ((∀ words ∈ fromKeywords (Text.words (headerText block)), ∀ word ∈ words, ∀ c ∈ word,
        endsRun c = false) → ∀ c ∈ behind, endsRun c = false) := by
  rw [declaredName, ← headerText] at h
  split at h
  · rename_i first words hkeywords
    split at h
    · rename_i found hfound
      cases h
      obtain ⟨hhead, hne⟩ := Option.filter_eq_some_iff.mp hfound
      obtain ⟨word, hword, rfl⟩ := Option.map_eq_some_iff.mp hhead
      obtain ⟨front, keyword, rest, hwords, heq, hkeyword⟩ := exists_of_fromKeywords hkeywords
      cases heq
      obtain ⟨more, rfl⟩ : ∃ more, words = word :: more := by
        cases words with
        | nil => cases hword
        | cons w more =>
            cases hword
            exact ⟨more, rfl⟩
      obtain ⟨s, after, hheader, hs, hsolid, -, hend, hafter⟩ := Text.exists_of_words hwords
      obtain ⟨gap, behind, rfl, hgap, hsolidWord, hneWord, hendWord, hmore⟩ :=
        Text.exists_of_words_cons hafter
      have hsplit := List.takeWhile_append_dropWhile (p := fun c => c != '<') (l := word)
      refine ⟨s, first, gap, (word.dropWhile fun c => c != '<') ++ behind, ?_, hs, hkeyword, ?_,
        hgap, by simpa using hne, ?_, fun hrun c hc => ?_⟩
      · rw [hheader, bareName, ← List.append_assoc (word.takeWhile _), hsplit]
      · rintro rfl
        cases word with
        | nil => exact absurd rfl hneWord
        | cons c word =>
            have hblank : Text.isBlank c = true := by simpa using hend
            rw [hsolidWord c (by simp)] at hblank
            cases hblank
      · cases hdrop : word.dropWhile fun c => c != '<' with
        | nil =>
            rw [List.nil_append]
            cases behind with
            | nil => rfl
            | cons c behind =>
                have hblank : Text.isBlank c = true := by simpa using hendWord
                exact Text.isWordChar_of_isBlank hblank
        | cons c rest =>
            have hc : c = '<' := by
              have hhead :=
                List.head_dropWhile_not (fun c => c != '<') (l := word) (by simp [hdrop])
              simpa [hdrop] using hhead
            rw [hc]
            rfl
      · have hwordRun := hrun _ (hkeywords ▸ List.mem_singleton_self _)
        rcases List.mem_append.mp hc with hc | hc
        · refine hwordRun word (by simp) c ?_
          exact (List.dropWhile_sublist _).subset hc
        · rcases Text.mem_words hc with hblank | ⟨found, hfound, hmem⟩
          · exact endsRun_of_isBlank hblank
          · rw [hmore] at hfound
            exact hwordRun found (by simp [hfound]) c hmem
    · cases h
  · cases h

/-- Every block has an opening brace. -/
theorem brace_mem_of_blocksFrom {depth : Nat} {seen : Text} {gs : List Glyph} {block : Text}
    (hseen : 0 < depth → '{' ∈ seen) (h : block ∈ blocksFrom depth seen gs) : '{' ∈ block := by
  fun_induction blocksFrom depth seen gs with
  | case1 => cases h
  | case2 seen g gs depth hrole ih =>
      exact ih (fun _ => List.mem_cons.mpr (.inl (Glyph.char_of_role_openBrace hrole).symm)) h
  | case3 seen g gs hrole ih =>
      rcases List.mem_cons.mp h with rfl | h
      · exact List.mem_reverse.mpr (List.mem_cons_of_mem _ (hseen (by omega)))
      · exact ih (fun hdepth => absurd hdepth (by omega)) h
  | case4 seen g gs depth hrole ih =>
      exact ih (fun _ => List.mem_cons_of_mem _ (hseen (by omega))) h
  | case5 seen g gs hrole ih => exact ih (fun hdepth => absurd hdepth (by omega)) h
  | case6 depth seen g gs _ _ _ _ ih =>
      exact ih (fun hdepth => List.mem_cons_of_mem _ (hseen hdepth)) h

theorem brace_mem_of_blocks {t block : Text} (h : block ∈ blocks t) : '{' ∈ block := by
  obtain ⟨raw, hraw, rfl⟩ := List.mem_map.mp h
  have hbrace := brace_mem_of_blocksFrom (fun hdepth => absurd hdepth (by omega)) hraw
  have hblank : Text.isBlank '{' = false := rfl
  rwa [← Source.mem_inked hblank, Text.trim, Source.inked_trimEnd, Source.inked_trimStart,
    Source.mem_inked hblank]

/-! ## The header in dense text -/

section Dense

variable {front keyword gap name behind : Text}

/-- A keyword and a name behind blanks are arranged with one space between them. -/
theorem arrange_keyword (hkeyword : Text.IsWord keyword) (hne : gap ≠ [])
    (hgap : ∀ c ∈ gap, Text.isBlank c = true) (hname : ∀ c ∈ name, Source.isInert c = true)
    (hnil : name ≠ []) (t : Text) :
    Source.arrange false (front ++ (keyword ++ (gap ++ (name ++ t)))) =
      Source.arrange false front ++ (keyword ++ ' ' :: (name ++ Source.arrange false t)) := by
  have hspace : Source.arrange false (gap ++ (name ++ t)) =
      ' ' :: (name ++ Source.arrange false t) := by
    cases gap with
    | nil => exact absurd rfl hne
    | cons c gap =>
        cases name with
        | nil => exact absurd rfl hnil
        | cons d name =>
            have hinert := hname d (by simp)
            have hblank := Source.isBlank_of_isInert hinert
            have htrim : Text.trimStart (gap ++ (d :: name ++ t)) = d :: name ++ t := by
              rw [Text.trimStart_append_of_blank fun e he => hgap e (List.mem_cons_of_mem _ he)]
              exact Text.trimStart_of_head? (t := d :: (name ++ t)) hblank
            rw [List.cons_append, Source.arrange_blank (hgap c (by simp)), Source.gapBefore, htrim,
              if_neg (by simpa using Source.isTight_of_isInert hinert),
              Source.arrange_stretch hname, List.singleton_append]
            exact congrArg _ (Text.trimStart_of_head? (t := d :: (name ++ _)) hblank)
  obtain ⟨hword, hchars⟩ := hkeyword
  cases keyword with
  | nil => exact absurd rfl hword
  | cons k keyword =>
      rw [List.cons_append,
        Source.arrange_append_inert (Source.isInert_of_isWordChar (hchars k (by simp))),
        Source.arrange_stretch fun c hc =>
          Source.isInert_of_isWordChar (hchars c (List.mem_cons_of_mem _ hc)), hspace,
        List.cons_append]

/-- A legible header keeps its keyword and its name in the dense text, with a space
between them, boundaries around them and a brace as the next mark. -/
theorem exists_dense (hkept : Source.isKept none (front ++ (keyword ++ (gap ++ (name ++ behind)))))
    (hfront : front = [] ∨ ∃ u c, front = u ++ [c] ∧ Text.isBlank c = true)
    (hkeyword : Text.IsWord keyword) (hne : gap ≠ []) (hgap : ∀ c ∈ gap, Text.isBlank c = true)
    (hname : ∀ c ∈ name, Source.isInert c = true) (hnil : name ≠ [])
    (hhead : behind.head?.any Text.isWordChar = false) (hrun : ∀ c ∈ behind, endsRun c = false)
    (t : Text) :
    ∃ s rest, Source.dense (front ++ (keyword ++ (gap ++ (name ++ behind))) ++ '{' :: t) =
        s ++ (keyword ++ ' ' :: (name ++ rest)) ∧ s.getLast?.any Text.isWordChar = false ∧
      rest.head?.any Text.isWordChar = false ∧ rest.find? endsRun = some '{' := by
  let tail := Source.arrange false
    (behind ++ '{' :: Source.dropAllClauses (Source.stripComments t))
  have hsettled : Source.settle false (Source.stripComments
      (front ++ (keyword ++ (gap ++ (name ++ behind))) ++ '{' :: t)) =
      Source.arrange false front ++ ((keyword ++ ' ' :: name) ++ tail) := by
    rw [Source.stripComments_kept rfl hkept, Source.settle, Source.dropAllClauses_kept rfl hkept]
    have hsplit (u : Text) : front ++ (keyword ++ (gap ++ (name ++ behind))) ++ u =
        front ++ (keyword ++ (gap ++ (name ++ (behind ++ u)))) := by simp
    rw [hsplit, arrange_keyword hkeyword hne hgap hname hnil]
    simp [tail]
  have hfirst : (keyword ++ ' ' :: name).head?.any Text.isBlank = false :=
    (hkeyword.startsWord.append _).head?_any
  have hlast : (keyword ++ ' ' :: name).getLast?.any Text.isBlank = false := by
    rw [List.getLast?_append, List.getLast?_cons, List.getLast?_eq_some_getLast hnil,
      Option.getD_some, Option.some_or, Option.any_some]
    exact Source.isBlank_of_isInert (hname _ (List.getLast_mem hnil))
  refine ⟨Text.trimStart (Source.arrange false front), Text.trimEnd tail, ?_, ?_, ?_, ?_⟩
  · rw [Source.dense_eq, hsettled, Text.trim_around hfirst hlast (by simp)]
    simp
  · apply Text.getLast?_trimStart
    rcases hfront with rfl | ⟨u, c, rfl, hc⟩
    · rw [Source.arrange_nil]
      rfl
    · exact Source.getLast?_arrange_blank hc false u
  · apply Text.head?_trimEnd
    apply Source.head?_arrange
    cases behind with
    | nil => rfl
    | cons c behind => exact hhead
  · have hblank (c : Char) (hc : endsRun c = true) : Text.isBlank c = false := by
      rw [← Bool.not_eq_true]
      intro hblank
      rw [endsRun_of_isBlank hblank] at hc
      cases hc
    have hbehind : behind.find? endsRun = none := by
      rw [List.find?_eq_none]
      intro c hc
      simp [hrun c hc]
    have hbrace : endsRun '{' = true := rfl
    rw [← Source.find?_inked hblank, Source.inked_trimEnd, Source.inked_arrange,
      Source.find?_inked hblank, List.find?_append, hbehind, Option.none_or,
      List.find?_cons_of_pos hbrace]

end Dense

/-- Trimming a run takes nothing from what it declares. -/
theorem Declares.trim {t name : Text} (h : Declares t name)
    (hname : ∀ c ∈ name, Source.isInert c = true)
    (hne : name ≠ []) : Declares (Text.trim t) name := by
  obtain ⟨front, keyword, blanks, behind, rfl, hkeyword, hnil, hblanks, hfront, hbehind⟩ := h
  have hfirst : (keyword ++ (blanks ++ name)).head?.any Text.isBlank = false :=
    ((isWord_of_typeKeyword hkeyword).startsWord.append _).head?_any
  have hlast : (keyword ++ (blanks ++ name)).getLast?.any Text.isBlank = false := by
    rw [List.getLast?_append, List.getLast?_append, List.getLast?_eq_some_getLast hne,
      Option.some_or, Option.some_or, Option.any_some]
    exact Source.isBlank_of_isInert (hname _ (List.getLast_mem hne))
  have htrim := Text.trim_around hfirst hlast (by simp [hne]) front behind
  refine ⟨Text.trimStart front, keyword, blanks, Text.trimEnd behind, ?_, hkeyword, hnil, hblanks,
    Text.getLast?_trimStart hfront, Text.head?_trimEnd hbehind⟩
  simpa using htrim

/-- A header whose run has a mention by the keyword declares the name. -/
theorem Header.declares_of_firstRun? {t name : Text} {header : Header}
    (hlast : name.getLast?.any Text.isWordChar = true)
    (h : firstRun? (keywordMention name) t = some header) : Declares header.run name := by
  obtain ⟨front, tail, rest, hrun, hmention⟩ := exists_of_firstRun? h
  obtain ⟨hfront, keyword, blanks, behind, rfl, hkeyword, hnil, hblanks, hbehind⟩ :=
    exists_of_keywordMention hlast hmention
  exact ⟨front, keyword, blanks, behind, hrun, hkeyword, hnil, hblanks, hfront, hbehind⟩

end Declaration

open Declaration

/-- Take a child of a file that can be read, with an inert name and a legible header. If
its name ends in a word character, its header is found under that name, and in it the
keyword of a type stands directly in front of the name. If the name ends in any other
character and no word character stands behind it, its header is not found. -/
theorem SourceFile.header_of_child {settings : Settings} {id : Identifier} {file child : SourceFile}
    {reading : Reading} (hread : file.read settings id = .ok reading)
    (hchild : child ∈ reading.children)
    (hname : ∀ c ∈ child.name.toList, Source.isInert c = true)
    (hlegible : Legible (headerText child.text.toList)) :
    (child.name.toList.getLast?.any Text.isWordChar = true →
      (∃ header, Header.locate? (Source.dense child.text.toList) child.name.toList = some header ∧
        Declares header.text child.name.toList) ∧
      ∀ other wanted, child.read settings other ≠ .error (.headerNotFound wanted)) ∧
    (child.name.toList.getLast?.any Text.isWordChar = false →
      runsOn child.name.toList (Source.dense child.text.toList) = false →
      ∀ other, child.read settings other = .error (.headerNotFound child.name)) := by
  obtain ⟨_, _, -, -, hchildren, -⟩ := read_eq_ok_iff.mp hread
  obtain ⟨block, hblock, hfile⟩ := exists_of_mem_children hchildren child hchild
  obtain ⟨name, hdeclared, rfl⟩ := child_eq_ok_iff.mp hfile
  rw [String.toList_ofList] at hname
  rw [String.toList_ofList] at hlegible
  rw [String.toList_ofList, String.toList_ofList]
  obtain ⟨front, keyword, gap, behind, hheader, hfront, hkeyword, hgapNil, hgap, hnil, hhead,
    hrun⟩ := exists_of_declaredName hdeclared
  refine ⟨fun hlast => ?_, fun hlast hbehind other => ?_⟩
  · obtain ⟨t, ht⟩ : ∃ t, block = headerText block ++ '{' :: t := by
      rcases Text.stretch_or_split (· != '{') block with hall | ⟨front, c, t, hsplit, hfront, hc⟩
      · exact absurd (hall '{' (brace_mem_of_blocks hblock)) (by decide)
      · cases show c = '{' by simpa using hc
        refine ⟨t, ?_⟩
        rw [headerText, hsplit, Text.takeWhile_stretch hfront rfl]
    obtain ⟨s, rest, hdense, hs, hrest, hbrace⟩ := exists_dense (hheader ▸ hlegible.kept) hfront
      (isWord_of_typeKeyword hkeyword) hgapNil hgap hname hnil hhead (hrun hlegible.run) t
    rw [← hheader, ← ht] at hdense
    have hmention := keywordMention_ne_none_of_brace hkeyword hs hlast hrest
      (upToBrace?_ne_none hbrace)
    obtain ⟨header, hfound⟩ := Option.ne_none_iff_exists'.mp
      (firstRun?_ne_none_of_mention (atMarks_keywordMention name) hmention)
    rw [← hdense] at hfound
    have hlocate : Header.locate? (Source.dense block) name = some header := by
      rw [Header.locate?, hfound, Option.some_or]
    refine ⟨⟨header, hlocate, (Header.declares_of_firstRun? hlast hfound).trim hname hnil⟩, ?_⟩
    intro other wanted hread
    rw [read, String.toList_ofList, String.toList_ofList, hlocate] at hread
    dsimp only at hread
    split at hread
    · cases hread
    · split at hread
      · rename_i fault hfault
        cases hread
        obtain ⟨cause, hcause⟩ := classSyntax_of_children hfault
        cases hcause
      · cases hread
  · have hnone := locate?_eq_none hnil hlast hbehind
    rw [read, String.toList_ofList, String.toList_ofList, hnone]

/-- Of two classes inside of `A`, the one named `B` is found and the one named `C$` is
not. -/
theorem SourceFile.header_of_child_dollar :
    ∃ reading, (⟨"A", "class A{class B{} class C${}}", none⟩ : SourceFile).read {}
        (Identifier.ofNat 0) = .ok reading ∧
      reading.children = [⟨"B", "class B{}", some "A"⟩, ⟨"C$", "class C${}", some "A"⟩] ∧
      (∃ header, Header.locate? (Source.dense "class B{}".toList) "B".toList = some header ∧
        Declares header.text "B".toList) ∧
      ∀ other, (⟨"C$", "class C${}", some "A"⟩ : SourceFile).read {} other =
        .error (.headerNotFound "C$") := by
  have hread : (⟨"A", "class A{class B{} class C${}}", none⟩ : SourceFile).read {}
      (Identifier.ofNat 0) =
      .ok ⟨{ id := Identifier.ofNat 0, name := "A", kind := .plainClass, fields := some [],
              methods := some [] },
        [⟨"B", "class B{}", some "A"⟩, ⟨"C$", "class C${}", some "A"⟩]⟩ := by
    decide +kernel
  have hplain := SourceFile.header_of_child hread List.mem_cons_self
    (Text.forall_mem_of_all (by decide +kernel)) (by decide +kernel)
  have hdollar := SourceFile.header_of_child hread (List.mem_cons_of_mem _ List.mem_cons_self)
    (Text.forall_mem_of_all (by decide +kernel)) (by decide +kernel)
  exact ⟨_, hread, rfl, (hplain.1 (by decide +kernel)).1,
    hdollar.2 (by decide +kernel) (by decide +kernel)⟩

end ClassDiagram
