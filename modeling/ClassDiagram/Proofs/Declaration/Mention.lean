import ClassDiagram.Catalogue.Braces
import ClassDiagram.Proofs.Text.Word

/-!
# Mentions and runs

A mention reads on to the brace that ends its run. When no mark that ends a run stands
in the name, every mention in a run therefore tells the same: the run and the text
behind its brace. So a text put in front of a run changes what is found there only by
the mentions of its own.
-/

namespace ClassDiagram.Declaration

/-- What a mention tells is a run: no mark stands in it. -/
def Mention.Clean (mention : Mention) : Prop :=
  ∀ before t run behind, mention before t = some (run, behind) → ∀ c ∈ run, endsRun c = false

/-- A mention asks of the character before it only whether it is a word character. -/
def Mention.AtMarks (mention : Mention) : Prop :=
  ∀ b t, Text.isWordChar b = false → mention (some b) t = mention none t

theorem endsRun_of_isWordChar {c : Char} (h : Text.isWordChar c = true) : endsRun c = false := by
  rw [← Bool.not_eq_true]
  intro hmark
  simp only [endsRun, Bool.or_eq_true, beq_iff_eq] at hmark
  obtain (rfl | rfl) | rfl := hmark <;> cases h

theorem run_of_over {marks t : Text} (h : Text.Over marks t)
    (hmarks : marks.all (fun c => decide (endsRun c = false)) = true) :
    ∀ c ∈ t, endsRun c = false :=
  h.forall_mem (Text.forall_mem_of_all hmarks) fun _ hc => endsRun_of_isWordChar hc

theorem endsRun_of_isBlank {c : Char} (h : Text.isBlank c = true) : endsRun c = false := by
  rw [← Bool.not_eq_true]
  intro hmark
  simp only [endsRun, Bool.or_eq_true, beq_iff_eq] at hmark
  obtain (rfl | rfl) | rfl := hmark <;> cases h

theorem isWord_of_typeKeyword {keyword : Text} (h : keyword ∈ typeKeywords) :
    Text.IsWord keyword := by
  have hall : ∀ word ∈ typeKeywords, Text.IsWord word := by decide
  exact hall keyword h

/-- Two runs of one text are the same. -/
theorem run_unique {r s t u : Text} {c d : Char} (hr : ∀ c ∈ r, endsRun c = false)
    (hs : ∀ c ∈ s, endsRun c = false) (hc : endsRun c = true) (hd : endsRun d = true)
    (h : r ++ c :: t = s ++ d :: u) : r = s ∧ c = d ∧ t = u := by
  have hr' : ∀ c ∈ r, (!endsRun c) = true := fun c hmem => by rw [hr c hmem]; rfl
  have hs' : ∀ c ∈ s, (!endsRun c) = true := fun c hmem => by rw [hs c hmem]; rfl
  have hsame := congrArg (List.takeWhile fun c => !endsRun c) h
  rw [Text.takeWhile_stretch hr' (by simp [hc]), Text.takeWhile_stretch hs' (by simp [hd])] at hsame
  subst hsame
  have htail := List.append_cancel_left h
  exact ⟨rfl, (List.cons.inj htail).1, (List.cons.inj htail).2⟩

/-- A text is one run, or its first run ends in a mark. -/
theorem run_or_split (t : Text) :
    (∀ c ∈ t, endsRun c = false) ∨ ∃ run mark rest, t = run ++ mark :: rest ∧
      (∀ c ∈ run, endsRun c = false) ∧ endsRun mark = true := by
  simpa using Text.stretch_or_split (fun c => !endsRun c) t

/-! ## The mentions of a name -/

section Name

variable {name : Text}

theorem clean_upToBrace? {t run behind : Text} (h : upToBrace? t = some (run, behind)) :
    ∀ c ∈ run, endsRun c = false := by
  rw [upToBrace?] at h
  split at h
  · cases h
    intro c hc
    have hall := List.all_takeWhile (p := fun c => !endsRun c) (l := t)
    simpa using List.all_eq_true.mp hall c hc
  · cases h

theorem clean_nameEnding (hname : ∀ c ∈ name, endsRun c = false) :
    Mention.Clean (nameEnding name) := by
  intro before t run behind h c hc
  rw [nameEnding] at h
  split at h
  · cases h
  · rename_i rest hp
    dsimp only at h
    split at h
    · obtain ⟨⟨tail, rest'⟩, hb, heq⟩ := Option.map_eq_some_iff.mp h
      cases heq
      rcases List.mem_append.mp hc with hc | hc
      · exact hname c hc
      · exact clean_upToBrace? hb c hc
    · cases h

theorem clean_blanksThenName (hname : ∀ c ∈ name, endsRun c = false) :
    Mention.Clean (blanksThenName name) := by
  intro before t
  induction t generalizing before with
  | nil =>
      intro run behind h
      cases h
  | cons d t ih =>
      intro run behind h c hc
      rw [blanksThenName] at h
      split at h
      · rename_i hblank
        split at h
        · rename_i run' behind' hr
          cases h
          rcases List.mem_cons.mp hc with rfl | hc
          · exact endsRun_of_isBlank hblank
          · exact ih _ _ _ hr c hc
        · obtain ⟨⟨run', behind'⟩, hr, heq⟩ := Option.map_eq_some_iff.mp h
          cases heq
          rcases List.mem_cons.mp hc with rfl | hc
          · exact endsRun_of_isBlank hblank
          · exact clean_nameEnding hname _ _ _ _ hr c hc
      · cases h

theorem clean_nameMention (hname : ∀ c ∈ name, endsRun c = false) :
    Mention.Clean (nameMention name) := by
  intro before t run behind h
  rw [nameMention] at h
  split at h
  · exact clean_nameEnding hname _ _ _ _ h
  · cases h

theorem clean_keywordMention (hname : ∀ c ∈ name, endsRun c = false) :
    Mention.Clean (keywordMention name) := by
  intro before t run behind h c hc
  rw [keywordMention] at h
  split at h
  · cases h
  · obtain ⟨keyword, hkeyword, h⟩ := List.exists_of_findSome?_eq_some h
    split at h
    · cases h
    · rename_i rest hp
      obtain ⟨⟨run', behind'⟩, hr, heq⟩ := Option.map_eq_some_iff.mp h
      cases heq
      rcases List.mem_append.mp hc with hc | hc
      · exact endsRun_of_isWordChar ((isWord_of_typeKeyword hkeyword).2 c hc)
      · exact clean_blanksThenName hname _ _ _ _ hr c hc

theorem isBoundary_of_mark {b : Char} (hb : Text.isWordChar b = false) (after : Option Char) :
    Text.isBoundary (some b) after = Text.isBoundary none after := by
  rw [Text.isBoundary, Text.isBoundary, Option.any_some, hb]
  rfl

theorem atMarks_nameMention (name : Text) : Mention.AtMarks (nameMention name) := by
  intro b t hb
  have hlast : ∀ after, Text.isBoundary (name.getLast?.or (some b)) after =
      Text.isBoundary (name.getLast?.or none) after := by
    intro after
    cases name.getLast? with
    | none => exact isBoundary_of_mark hb after
    | some c => rfl
  rw [nameMention, nameMention, isBoundary_of_mark hb, nameEnding, nameEnding]
  simp only [hlast]

theorem atMarks_keywordMention (name : Text) : Mention.AtMarks (keywordMention name) := by
  intro b t hb
  rw [keywordMention, keywordMention, if_neg (by simp [hb]), if_neg (by simp)]

/-- The keyword of a type has to be a word of its own with a blank behind it. -/
theorem keywordMention_eq_none {before : Option Char} {t : Text}
    (h : (t.dropWhile Text.isWordChar).head?.any Text.isBlank = false) :
    keywordMention name before t = none := by
  rw [keywordMention]
  split
  · rfl
  · rw [List.findSome?_eq_none_iff]
    intro keyword hkeyword
    split
    · rfl
    · rename_i rest hp
      cases Text.dropPrefix?_eq_some_iff.mp hp
      cases rest with
      | nil => rfl
      | cons c rest =>
          cases hc : Text.isBlank c with
          | false =>
              rw [blanksThenName, if_neg (by simp [hc])]
              rfl
          | true =>
              have hend : (c :: rest).head?.any Text.isWordChar = false :=
                Text.isWordChar_of_isBlank hc
              rw [Text.dropWhile_stretch (isWord_of_typeKeyword hkeyword).2 hend, List.head?_cons,
                Option.any_some, hc] at h
              cases h

theorem keywordMention_mark {before : Option Char} {c : Char} (hc : Text.isWordChar c = false)
    (t : Text) : keywordMention name before (c :: t) = none := by
  rw [keywordMention]
  split
  · rfl
  · rw [List.findSome?_eq_none_iff]
    intro keyword hkeyword
    split
    · rfl
    · rename_i rest hp
      obtain ⟨hne, hchars⟩ := isWord_of_typeKeyword hkeyword
      cases keyword with
      | nil => exact absurd rfl hne
      | cons k keyword =>
          cases Text.dropPrefix?_eq_some_iff.mp hp
          rw [hchars c (by simp)] at hc
          cases hc

end Name

/-! ## The last mention of a run -/

section Run

variable {mention : Mention} {before : Option Char}

theorem lastMention?_cons {c : Char} (hc : endsRun c = false) (t : Text) :
    lastMention? mention before (c :: t) =
      ((lastMention? mention (some c) t).map fun (run, behind) => (c :: run, behind)).or
        (mention before (c :: t)) := by
  rw [lastMention?, if_neg (by simp [hc])]
  cases lastMention? mention (some c) t with
  | none => rfl
  | some found => rfl

theorem lastMention?_mark {c : Char} (hc : endsRun c = true) (t : Text) :
    lastMention? mention before (c :: t) = mention before (c :: t) := by
  rw [lastMention?, if_pos hc]

/-- A later mention is found behind whatever stands before it in the run. -/
theorem lastMention?_append {s t run behind : Text} (hs : ∀ c ∈ s, endsRun c = false)
    (h : lastMention? mention (s.getLast?.or before) t = some (run, behind)) :
    lastMention? mention before (s ++ t) = some (s ++ run, behind) := by
  induction s generalizing before with
  | nil => exact h
  | cons c s ih =>
      have hlast : (c :: s).getLast?.or before = s.getLast?.or (some c) := by
        cases s with
        | nil => rfl
        | cons d s => rw [List.getLast?_cons_cons, List.getLast?_cons]; rfl
      rw [hlast] at h
      rw [List.cons_append, lastMention?_cons (hs c (by simp)),
        ih (fun d hd => hs d (List.mem_cons_of_mem _ hd)) h]
      rfl

theorem atMarks_lastMention? (hm : Mention.AtMarks mention) :
    Mention.AtMarks (lastMention? mention) := by
  intro b t hb
  cases t with
  | nil => exact hm b [] hb
  | cons c t => rw [lastMention?, lastMention?, hm b _ hb]

theorem clean_lastMention? (hm : Mention.Clean mention) :
    Mention.Clean (lastMention? mention) := by
  intro before t
  induction t generalizing before with
  | nil => exact fun run behind h => hm _ _ _ _ h
  | cons c t ih =>
      intro run behind h
      cases hc : endsRun c with
      | true =>
          rw [lastMention?_mark hc] at h
          exact hm _ _ _ _ h
      | false =>
          rw [lastMention?_cons hc, Option.or_eq_some_iff] at h
          rcases h with h | ⟨-, h⟩
          · obtain ⟨⟨run', behind'⟩, hr, heq⟩ := Option.map_eq_some_iff.mp h
            cases heq
            intro d hd
            rcases List.mem_cons.mp hd with rfl | hd
            · exact hc
            · exact ih _ _ _ hr d hd
          · exact hm _ _ _ _ h

/-- The run that is found is the first one of the text. -/
theorem lastMention?_run (hclean : Mention.Clean mention) (hreads : Mention.Reads mention)
    {s t run behind : Text} {c : Char} (hs : ∀ c ∈ s, endsRun c = false) (hc : endsRun c = true)
    (h : lastMention? mention before (s ++ c :: t) = some (run, behind)) :
    c = '{' ∧ run = s ∧ behind = t := by
  have hrun := clean_lastMention? hclean _ _ _ _ h
  have hsplit := reads_lastMention? hreads _ _ _ _ h
  obtain ⟨rfl, rfl, rfl⟩ := run_unique hs hrun hc rfl hsplit
  exact ⟨rfl, rfl, rfl⟩

end Run

/-! ### Texts without a mention of the keyword -/

section Keyword

variable {name : Text} {before : Option Char}

theorem lastMention?_keyword_mark {c : Char} (hc : Text.isWordChar c = false) {t : Text}
    (h : lastMention? (keywordMention name) none t = none) :
    lastMention? (keywordMention name) before (c :: t) = none := by
  cases hend : endsRun c with
  | true => rw [lastMention?_mark hend, keywordMention_mark hc]
  | false =>
      rw [lastMention?_cons hend, atMarks_lastMention? (atMarks_keywordMention name) c t hc, h,
        keywordMention_mark hc]
      rfl

/-- A word with no blank behind it is no keyword. -/
theorem lastMention?_keyword_word {w t : Text} (hw : ∀ c ∈ w, Text.isWordChar c = true)
    (hword : t.head?.any Text.isWordChar = false) (hblank : t.head?.any Text.isBlank = false)
    (h : lastMention? (keywordMention name) none t = none) :
    lastMention? (keywordMention name) before (w ++ t) = none := by
  induction w generalizing before with
  | nil =>
      cases t with
      | nil => exact keywordMention_eq_none rfl
      | cons c t =>
          have hc : Text.isWordChar c = false := by simpa using hword
          cases hend : endsRun c with
          | true => rw [List.nil_append, lastMention?_mark hend, keywordMention_mark hc]
          | false =>
              rw [lastMention?_cons hend, keywordMention_mark hc] at h
              rw [List.nil_append, lastMention?_cons hend, keywordMention_mark hc]
              exact h
  | cons c w ih =>
      have hc := hw c (by simp)
      have hmention : keywordMention name before (c :: w ++ t) = none := by
        apply keywordMention_eq_none
        rw [Text.dropWhile_stretch hw hword, hblank]
      rw [List.cons_append, lastMention?_cons (endsRun_of_isWordChar hc),
        ih fun d hd => hw d (List.mem_cons_of_mem _ hd), ← List.cons_append, hmention]
      rfl

end Keyword

/-! ## The first run with a mention -/

section First

variable {mention : Mention} {t : Text}

theorem firstRun?_of_some {run behind : Text}
    (h : lastMention? mention none t = some (run, behind)) :
    firstRun? mention t = some ⟨[], run, behind⟩ := by
  rw [firstRun?, h]

/-- A run without a mention is passed over. -/
theorem firstRun?_of_none {s rest : Text} {c : Char} (hs : ∀ c ∈ s, endsRun c = false)
    (hc : endsRun c = true) (h : lastMention? mention none (s ++ c :: rest) = none) :
    firstRun? mention (s ++ c :: rest) =
      (firstRun? mention rest).map fun found =>
        { found with before := s ++ c :: found.before } := by
  have hs' : ∀ c ∈ s, (!endsRun c) = true := fun c hmem => by rw [hs c hmem]; rfl
  have htake := Text.takeWhile_stretch (t := c :: rest) hs' (by simp [hc])
  have hdrop := Text.dropWhile_stretch (t := c :: rest) hs' (by simp [hc])
  rw [firstRun?, h]
  dsimp only
  split
  · rename_i hnil
    rw [hdrop] at hnil
    cases hnil
  · rename_i mark behind hcons
    rw [hdrop] at hcons
    cases hcons
    rw [htake]

/-- A text without marks is one run. -/
theorem firstRun?_of_run (ht : ∀ c ∈ t, endsRun c = false)
    (h : lastMention? mention none t = none) : firstRun? mention t = none := by
  have hstretch : ∀ c ∈ t, (!endsRun c) = true := fun c hc => by simp [ht c hc]
  have hdrop := Text.dropWhile_stretch (t := []) hstretch rfl
  rw [List.append_nil] at hdrop
  rw [firstRun?, h]
  dsimp only
  split
  · rfl
  · rename_i hcons
    rw [hdrop] at hcons
    cases hcons

/-- The first run of a text has a mention, or the header stands behind the mark that
ends it. -/
theorem firstRun?_cases {header : Header} (h : firstRun? mention t = some header) :
    (header.before = [] ∧ lastMention? mention none t = some (header.run, header.behind)) ∨
    (∃ s c rest found, (∀ c ∈ s, endsRun c = false) ∧ endsRun c = true ∧ t = s ++ c :: rest ∧
      lastMention? mention none t = none ∧ firstRun? mention rest = some found ∧
      header = { found with before := s ++ c :: found.before }) := by
  cases hlast : lastMention? mention none t with
  | some found =>
      obtain ⟨run, behind⟩ := found
      rw [firstRun?_of_some hlast] at h
      cases h
      exact .inl ⟨rfl, rfl⟩
  | none =>
      rcases run_or_split t with ht | ⟨run, mark, rest, rfl, hrun, hmark⟩
      · rw [firstRun?_of_run ht hlast] at h
        cases h
      · rw [firstRun?_of_none hrun hmark hlast] at h
        obtain ⟨found, hfound, rfl⟩ := Option.map_eq_some_iff.mp h
        exact .inr ⟨run, mark, rest, found, hrun, hmark, rfl, rfl, hfound, rfl⟩

end First

/-! ## A header by its keyword -/

section Keyword

variable {name : Text}

/-- A mention anywhere in a run makes the run the one that is found. -/
theorem lastMention?_ne_none {mention : Mention} {s t : Text} {before : Option Char}
    (hs : ∀ c ∈ s, endsRun c = false) (h : mention (s.getLast?.or before) t ≠ none) :
    lastMention? mention before (s ++ t) ≠ none := by
  have hlast : lastMention? mention (s.getLast?.or before) t ≠ none := by
    cases t with
    | nil => exact h
    | cons c t =>
        rw [lastMention?]
        split
        · exact h
        · split
          · exact Option.some_ne_none _
          · exact h
  obtain ⟨⟨run, behind⟩, hfound⟩ := Option.ne_none_iff_exists'.mp hlast
  rw [lastMention?_append hs hfound]
  exact Option.some_ne_none _

/-- A name that ends in a word character is found in front of another character, in a run
that ends in a brace. -/
theorem nameEnding_ne_none {rest : Text} (hlast : name.getLast?.any Text.isWordChar = true)
    (hend : rest.head?.any Text.isWordChar = false) (hbrace : upToBrace? rest ≠ none)
    (before : Option Char) : nameEnding name before (name ++ rest) ≠ none := by
  have hboundary : Text.isBoundary (name.getLast?.or before) rest.head? = true := by
    cases hname : name.getLast? with
    | none =>
        rw [hname] at hlast
        cases hlast
    | some c =>
        rw [hname] at hlast
        rw [Option.some_or, Text.isBoundary, hlast, hend]
        rfl
  rw [nameEnding, Text.dropPrefix?_eq_some_iff.mpr rfl]
  dsimp only
  rw [if_pos hboundary, Ne, Option.map_eq_none_iff]
  exact hbrace

/-- Such a name is mentioned by the keyword of a type and blanks in front of it. -/
theorem keywordMention_ne_none_of_blanks {keyword blanks rest : Text} {before : Option Char}
    (hkeyword : keyword ∈ typeKeywords) (hbefore : before.any Text.isWordChar = false)
    (hne : blanks ≠ []) (hblanks : ∀ c ∈ blanks, Text.isBlank c = true)
    (hlast : name.getLast?.any Text.isWordChar = true)
    (hend : rest.head?.any Text.isWordChar = false) (hbrace : upToBrace? rest ≠ none) :
    keywordMention name before (keyword ++ (blanks ++ (name ++ rest))) ≠ none := by
  have hnaming (b : Option Char) : blanksThenName name b (blanks ++ (name ++ rest)) ≠ none := by
    induction blanks generalizing b with
    | nil => exact absurd rfl hne
    | cons c blanks ih =>
        rw [List.cons_append, blanksThenName, if_pos (hblanks c (by simp))]
        split
        · exact Option.some_ne_none _
        · rename_i hnone
          rw [Ne, Option.map_eq_none_iff]
          cases blanks with
          | nil => exact nameEnding_ne_none hlast hend hbrace (some c)
          | cons d blanks =>
              have hmore : ∀ e ∈ d :: blanks, Text.isBlank e = true :=
                fun e he => hblanks e (List.mem_cons_of_mem _ he)
              exact absurd hnone (ih (List.cons_ne_nil _ _) hmore (some c))
  rw [keywordMention, if_neg (by simp [hbefore]), Ne, List.findSome?_eq_none_iff]
  intro hnone
  have hmissing := hnone keyword hkeyword
  rw [Text.dropPrefix?_eq_some_iff.mpr rfl, Option.map_eq_none_iff] at hmissing
  exact hnaming _ hmissing

/-- A space is enough between the two. -/
theorem keywordMention_ne_none_of_brace {keyword rest : Text} {before : Option Char}
    (hkeyword : keyword ∈ typeKeywords) (hbefore : before.any Text.isWordChar = false)
    (hlast : name.getLast?.any Text.isWordChar = true)
    (hend : rest.head?.any Text.isWordChar = false) (hbrace : upToBrace? rest ≠ none) :
    keywordMention name before (keyword ++ ' ' :: (name ++ rest)) ≠ none := by
  have hspace : ∀ c ∈ [' '], Text.isBlank c = true := Text.forall_mem_of_all rfl
  exact keywordMention_ne_none_of_blanks hkeyword hbefore (List.cons_ne_nil _ _) hspace hlast hend
    hbrace

/-- The name behind the keyword of a type is mentioned by it. -/
theorem keywordMention_ne_none {keyword tail behind : Text} {before : Option Char}
    (hkeyword : keyword ∈ typeKeywords) (hbefore : before.any Text.isWordChar = false)
    (hname : Text.IsWord name) (htail : ∀ c ∈ tail, endsRun c = false)
    (hend : tail.head?.any Text.isWordChar = false) :
    keywordMention name before (keyword ++ ' ' :: (name ++ (tail ++ '{' :: behind))) ≠ none := by
  have hbrace : upToBrace? (tail ++ '{' :: behind) ≠ none := by
    have hrun : ∀ c ∈ tail, (!endsRun c) = true := fun c hc => by rw [htail c hc]; rfl
    have hdrop := Text.dropWhile_stretch (t := '{' :: behind) hrun rfl
    rw [upToBrace?, hdrop]
    exact Option.some_ne_none _
  have hhead : (tail ++ '{' :: behind).head?.any Text.isWordChar = false := by
    cases tail with
    | nil => rfl
    | cons c tail => exact hend
  obtain ⟨c, hlast, hword⟩ := hname.endsWord
  exact keywordMention_ne_none_of_brace hkeyword hbefore (by rw [hlast]; exact hword) hhead hbrace

/-- A first run with the keyword of a type and its name is the header of the type. -/
theorem locate?_of_keyword {front keyword tail behind : Text}
    (hkeyword : keyword ∈ typeKeywords) (hname : Text.IsWord name)
    (hfront : ∀ c ∈ front, endsRun c = false) (hlast : front.getLast?.any Text.isWordChar = false)
    (htail : ∀ c ∈ tail, endsRun c = false) (hend : tail.head?.any Text.isWordChar = false) :
    Header.locate? (front ++ (keyword ++ ' ' :: (name ++ tail)) ++ '{' :: behind) name =
      some ⟨[], front ++ (keyword ++ ' ' :: (name ++ tail)), behind⟩ := by
  have hplain {w : Text} (hw : Text.IsWord w) : ∀ c ∈ w, endsRun c = false :=
    fun c hc => endsRun_of_isWordChar (hw.2 c hc)
  have hrun : ∀ c ∈ front ++ (keyword ++ ' ' :: (name ++ tail)), endsRun c = false := by
    intro c hc
    simp only [List.mem_append, List.mem_cons] at hc
    rcases hc with hc | hc | rfl | hc | hc
    · exact hfront c hc
    · exact hplain (isWord_of_typeKeyword hkeyword) c hc
    · rfl
    · exact hplain hname c hc
    · exact htail c hc
  have hfound : lastMention? (keywordMention name) none
      (front ++ (keyword ++ ' ' :: (name ++ tail)) ++ '{' :: behind) ≠ none := by
    rw [List.append_assoc, List.append_assoc, List.cons_append, List.append_assoc]
    refine lastMention?_ne_none hfront (keywordMention_ne_none hkeyword ?_ hname htail hend)
    rwa [Option.or_none]
  obtain ⟨⟨run, rest⟩, hmention⟩ := Option.ne_none_iff_exists'.mp hfound
  obtain ⟨-, rfl, rfl⟩ := lastMention?_run (clean_keywordMention (hplain hname))
    (reads_keywordMention name) hrun rfl hmention
  rw [Header.locate?, firstRun?_of_some hmention, Option.some_or]

end Keyword

end ClassDiagram.Declaration
