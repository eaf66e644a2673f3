import ClassDiagram.Proofs.Declaration.Children
import ClassDiagram.Proofs.Declaration.Mention
import ClassDiagram.Proofs.Literal.Bare

/-!
# What stands in front of a header

A text in front of a header becomes a part of the header when no mark ends the run
between them. The signature does not change by words that are no keywords of headers,
and the body does not change at all when the text opens no literal.
-/

namespace ClassDiagram.Declaration

/-! ## The run -/

section Locate

variable {front t name : Text}

/-- A mention is found behind a front that goes on in the same run. -/
theorem lastMention?_front {mention : Mention} (hmention : Mention.AtMarks mention)
    (hrun : ∀ c ∈ front, endsRun c = false) (hlast : front.getLast?.any Text.isWordChar = false)
    {run behind : Text} (h : lastMention? mention none t = some (run, behind)) :
    lastMention? mention none (front ++ t) = some (front ++ run, behind) := by
  refine lastMention?_append hrun ?_
  cases hfront : front.getLast? with
  | none => exact h
  | some b =>
      have hb : Text.isWordChar b = false := by simpa [hfront] using hlast
      exact (atMarks_lastMention? hmention b t hb).trans h

theorem Header.run_of_firstRun? {mention : Mention} (hclean : Mention.Clean mention)
    {header : Header} (h : firstRun? mention t = some header) :
    ∀ c ∈ header.run, endsRun c = false := by
  fun_induction firstRun? mention t generalizing header with
  | case1 t run behind hlast =>
      cases h
      exact clean_lastMention? hclean _ _ _ _ hlast
  | case2 => cases h
  | case3 t _ mark rest _ ih =>
      obtain ⟨found, hfound, rfl⟩ := Option.map_eq_some_iff.mp h
      have hrun := ih hfound
      exact hrun

/-- No mark stands in the run of a header. -/
theorem Header.run_of_locate? (hname : ∀ c ∈ name, endsRun c = false) {header : Header}
    (h : Header.locate? t name = some header) : ∀ c ∈ header.run, endsRun c = false := by
  rw [Header.locate?, Option.or_eq_some_iff] at h
  rcases h with h | ⟨-, h⟩
  · exact Header.run_of_firstRun? (clean_keywordMention hname) h
  · exact Header.run_of_firstRun? (clean_nameMention hname) h

/-- A front without a mention of its own goes into the header. -/
theorem locate?_front (hname : ∀ c ∈ name, endsRun c = false)
    (hrun : ∀ c ∈ front, endsRun c = false) (hlast : front.getLast?.any Text.isWordChar = false)
    (hkeyword : lastMention? (keywordMention name) none t = none →
      lastMention? (keywordMention name) none (front ++ t) = none)
    {header : Header} (h : Header.locate? t name = some header) (hbefore : header.before = []) :
    Header.locate? (front ++ t) name = some ⟨[], front ++ header.run, header.behind⟩ := by
  have hfirst {mention : Mention} (hm : Mention.AtMarks mention)
      (hfound : firstRun? mention t = some header) :
      firstRun? mention (front ++ t) = some ⟨[], front ++ header.run, header.behind⟩ := by
    rcases firstRun?_cases hfound with ⟨-, hmention⟩ | ⟨s, c, rest, found, -, -, -, -, -, rfl⟩
    · exact firstRun?_of_some (lastMention?_front hm hrun hlast hmention)
    · simp at hbefore
  rw [Header.locate?, Option.or_eq_some_iff] at h ⊢
  rcases h with h | ⟨hnone, h⟩
  · exact .inl (hfirst (atMarks_keywordMention name) h)
  · refine .inr ⟨?_, hfirst (atMarks_nameMention name) h⟩
    -- The pass for keywords fails behind the run as it did before, and in the run by `hkeyword`.
    have hsource := source_firstRun? (reads_nameMention name) h
    rw [Header.source, hbefore, List.nil_append] at hsource
    have hheader := Header.run_of_firstRun? (clean_nameMention hname) h
    have hmissing : lastMention? (keywordMention name) none t = none := by
      cases hfound : lastMention? (keywordMention name) none t with
      | none => rfl
      | some found =>
          obtain ⟨run, behind⟩ := found
          rw [firstRun?_of_some hfound] at hnone
          cases hnone
    have hfront := hkeyword hmissing
    rw [← hsource] at hmissing hfront hnone
    rw [firstRun?_of_none hheader rfl hmissing] at hnone
    rw [← hsource]
    rw [← List.append_assoc] at hfront ⊢
    rw [firstRun?_of_none _ rfl hfront]
    · rw [Option.map_eq_none_iff] at hnone ⊢
      exact hnone
    · intro c hc
      rcases List.mem_append.mp hc with hc | hc
      · exact hrun c hc
      · exact hheader c hc

end Locate

/-! ## A front with braces -/

section Closed

variable {mention : Mention} {s inner rest : Text}

/-- A run of its own in front of a text hides no header from the search. -/
theorem firstRun?_ne_none (hs : ∀ c ∈ s, endsRun c = false) {c : Char} (hc : endsRun c = true)
    (h : firstRun? mention rest ≠ none) : firstRun? mention (s ++ c :: rest) ≠ none := by
  cases hlast : lastMention? mention none (s ++ c :: rest) with
  | some found =>
      obtain ⟨run, behind⟩ := found
      rw [firstRun?_of_some hlast]
      exact Option.some_ne_none _
  | none =>
      rw [firstRun?_of_none hs hc hlast, Option.map_eq_none_iff.ne]
      exact h

theorem firstRun?_front_ne_none {front t : Text} (hmention : Mention.AtMarks mention)
    (hrun : ∀ c ∈ front, endsRun c = false) (hlast : front.getLast?.any Text.isWordChar = false)
    (h : firstRun? mention t ≠ none) : firstRun? mention (front ++ t) ≠ none := by
  obtain ⟨header, hheader⟩ := Option.ne_none_iff_exists'.mp h
  rcases firstRun?_cases hheader with ⟨-, hfound⟩ | ⟨s, c, rest, found, hs, hc, rfl, -, hfound, -⟩
  · rw [firstRun?_of_some (lastMention?_front hmention hrun hlast hfound)]
    exact Option.some_ne_none _
  · rw [← List.append_assoc]
    refine firstRun?_ne_none ?_ hc (by simp [hfound])
    intro d hd
    rcases List.mem_append.mp hd with hd | hd
    · exact hrun d hd
    · exact hs d hd

/-- The header of a type is found behind any front that opens no brace. -/
theorem locate?_front_ne_none {front t name : Text} (hrun : ∀ c ∈ front, endsRun c = false)
    (hlast : front.getLast?.any Text.isWordChar = false) (h : Header.locate? t name ≠ none) :
    Header.locate? (front ++ t) name ≠ none := by
  rw [Header.locate?, Ne, Option.or_eq_none_iff, not_and_or] at h ⊢
  rcases h with h | h
  · exact .inl (firstRun?_front_ne_none (atMarks_keywordMention name) hrun hlast h)
  · exact .inr (firstRun?_front_ne_none (atMarks_nameMention name) hrun hlast h)

/-- A header found in a text that begins with a closed brace is the run in front of
the brace, or it stands behind the brace. -/
theorem firstRun?_closed (hclean : Mention.Clean mention) (hreads : Mention.Reads mention)
    (hs : ∀ c ∈ s, endsRun c = false) (hinner : ∀ c ∈ inner, endsRun c = false) {header : Header}
    (h : firstRun? mention (s ++ '{' :: (inner ++ '}' :: rest)) = some header) :
    (header.before = [] ∧ header.run = s) ∨
      ∃ before, header.before = s ++ '{' :: (inner ++ '}' :: before) := by
  rcases firstRun?_cases h with
    ⟨hbefore, hmention⟩ | ⟨u, c, v, found, hu, hc, hsplit, -, hfound, rfl⟩
  · exact .inl ⟨hbefore, (lastMention?_run hclean hreads hs rfl hmention).2.1⟩
  · obtain ⟨rfl, rfl, rfl⟩ := run_unique hs hu rfl hc hsplit
    rcases firstRun?_cases hfound with ⟨-, hmention⟩ | ⟨u, c, v, found, hu, hc, hsplit, -, -, rfl⟩
    · exact absurd (lastMention?_run hclean hreads hinner rfl hmention).1 (by decide)
    · obtain ⟨rfl, rfl, rfl⟩ := run_unique hinner hu rfl hc hsplit
      exact .inr ⟨found.before, rfl⟩

/-- The same for the header of a type. -/
theorem locate?_closed {name : Text} (hname : ∀ c ∈ name, endsRun c = false)
    (hs : ∀ c ∈ s, endsRun c = false) (hinner : ∀ c ∈ inner, endsRun c = false)
    (h : Header.locate? rest name ≠ none) :
    ∃ header, Header.locate? (s ++ '{' :: (inner ++ '}' :: rest)) name = some header ∧
      ((header.before = [] ∧ header.run = s) ∨
        ∃ before, header.before = s ++ '{' :: (inner ++ '}' :: before)) := by
  have hfound : Header.locate? (s ++ '{' :: (inner ++ '}' :: rest)) name ≠ none := by
    rw [Header.locate?, Ne, Option.or_eq_none_iff, not_and_or] at h ⊢
    rcases h with h | h
    · exact .inl (firstRun?_ne_none hs rfl (firstRun?_ne_none hinner rfl h))
    · exact .inr (firstRun?_ne_none hs rfl (firstRun?_ne_none hinner rfl h))
  obtain ⟨header, hheader⟩ := Option.ne_none_iff_exists'.mp hfound
  refine ⟨header, hheader, ?_⟩
  rw [Header.locate?, Option.or_eq_some_iff] at hheader
  rcases hheader with hheader | ⟨-, hheader⟩
  · exact firstRun?_closed (clean_keywordMention hname) (reads_keywordMention name) hs hinner
      hheader
  · exact firstRun?_closed (clean_nameMention hname) (reads_nameMention name) hs hinner hheader

end Closed

/-! ## The signature -/

namespace Signature

/-- The words that a signature is read from. -/
def keywords : List Text :=
  ["class", "interface", "enum", "abstract", "extends", "implements"].map String.toList

/-- The signature that the words of a header state. -/
def ofWords (header : Text) (words : List Text) : Except SyntaxFault Signature := do
  let kind ← kindOf header words
  return {
    kind
    extended := if kind = .enum then none else (wordAfter? "extends" words).map typeNames
    implemented :=
      if kind.isClassLike then (wordAfter? "implements" words).map typeNames else none }

theorem ofHeader_eq (header : Text) : ofHeader header = ofWords header (topWords header) := rfl

section Skip

variable {word : Text} {words : List Text}

theorem kindOf_skip (hword : word ∉ keywords) {header header' : Text} {kind : Kind} :
    kindOf header' (word :: words) = .ok kind ↔ kindOf header words = .ok kind := by
  have hne {keyword : String} (hk : keyword.toList ∈ keywords) :
      (word :: words).contains keyword.toList = words.contains keyword.toList := by
    have : keyword.toList ≠ word := fun heq => hword (heq ▸ hk)
    rw [List.contains_cons, beq_eq_false_iff_ne.mpr this, Bool.false_or]
  have htype : typeKeywords.contains word = false := by
    rw [← Bool.not_eq_true, List.contains_iff_mem]
    have hsub : ∀ keyword ∈ typeKeywords, keyword ∈ keywords := by decide
    exact fun hmem => hword (hsub word hmem)
  have herror (fault fault' : SyntaxFault) (kind : Kind) :
      (Except.error fault : Except SyntaxFault Kind) = .ok kind ↔
        Except.error fault' = .ok kind := by
    constructor
    · intro h
      cases h
    · intro h
      cases h
  rw [kindOf, kindOf, List.filter_cons_of_neg (Bool.eq_false_iff.mp htype),
    hne (by decide), hne (by decide), hne (by decide)]
  split
  · exact herror _ _ _
  · split
    · exact Iff.rfl
    · exact Iff.rfl
    · exact herror _ _ _
    · exact Iff.rfl

theorem wordAfter?_skip {keyword : String} (hword : word ≠ keyword.toList) :
    wordAfter? keyword (word :: words) = wordAfter? keyword words := by
  rw [wordAfter?, wordAfter?, List.dropWhile_cons_of_pos (by simpa using hword)]

/-- A word that is no keyword of headers changes nothing in front of the others. -/
theorem ofWords_skip (hword : word ∉ keywords) (header header' : Text) {signature : Signature} :
    ofWords header' (word :: words) = .ok signature ↔
      ofWords header words = .ok signature := by
  have hextends : word ≠ "extends".toList := by
    rintro rfl
    exact hword (by decide)
  have himplements : word ≠ "implements".toList := by
    rintro rfl
    exact hword (by decide)
  rw [ofWords, ofWords, wordAfter?_skip hextends, wordAfter?_skip himplements]
  cases h : kindOf header words with
  | ok kind => rw [(kindOf_skip hword).mpr h]
  | error fault =>
      cases h' : kindOf header' (word :: words) with
      | ok kind =>
          rw [(kindOf_skip hword).mp h'] at h
          cases h
      | error fault' =>
          constructor
          · intro hok
            cases hok
          · intro hok
            cases hok

/-- A word that begins with a mark is no keyword. -/
theorem not_mem_keywords {c : Char} (hc : Text.isWordChar c = false) (w : Text) :
    c :: w ∉ keywords := by
  intro hmem
  have hfirst : ∀ keyword ∈ keywords, keyword.head?.any Text.isWordChar = true := by decide
  have hword := hfirst _ hmem
  rw [List.head?_cons, Option.any_some, hc] at hword
  cases hword

end Skip

section Front

variable {s t : Text}

theorem angleDepth_plain (hs : ∀ c ∈ s, c ≠ '<' ∧ c ≠ '>') (depth : Nat) :
    angleDepth depth s = depth := by
  induction s with
  | nil => rfl
  | cons c s ih =>
      obtain ⟨hopen, hclose⟩ := hs c (by simp)
      rw [angleDepth_cons, angleStep, if_neg (by simpa using hopen), if_neg (by simpa using hclose),
        ih fun d hd => hs d (List.mem_cons_of_mem _ hd)]

/-- A first word that is no keyword leaves the signature as it is. -/
theorem ofHeader_front_space (hsolid : Text.Solid s) (hne : s ≠ [])
    (hangle : ∀ c ∈ s, c ≠ '<' ∧ c ≠ '>') (hkeyword : s ∉ keywords) {signature : Signature} :
    ofHeader (s ++ ' ' :: t) = .ok signature ↔ ofHeader t = .ok signature := by
  have htop : topWords (s ++ ' ' :: t) = s :: topWords t := by
    rw [topWords, Text.words_append_blank rfl, Text.words_solid hsolid hne, List.singleton_append,
      topWordsFrom, if_pos rfl, angleDepth_plain hangle, topWords]
  rw [ofHeader_eq, ofHeader_eq, htop]
  exact ofWords_skip hkeyword t _

/-- A text without blanks joins a first word that begins with a mark, which is no
keyword before or after that. -/
theorem ofHeader_front_joined {b c : Char} (hb : Text.isWordChar b = false)
    (hsolid : Text.Solid (b :: s)) (hangle : ∀ c ∈ b :: s, c ≠ '<' ∧ c ≠ '>')
    (hc : Text.isWordChar c = false) (hblank : Text.isBlank c = false) {signature : Signature} :
    ofHeader (b :: s ++ c :: t) = .ok signature ↔ ofHeader (c :: t) = .ok signature := by
  obtain ⟨word, rest, hwords⟩ := Text.exists_words_cons hblank t
  have hjoined : Text.words (b :: s ++ c :: t) = (b :: (s ++ c :: word)) :: rest :=
    Text.words_solid_append_solid hsolid (by simpa using hblank) hwords
  have hdepth : angleDepth 0 (b :: (s ++ c :: word)) = angleDepth 0 (c :: word) := by
    rw [← List.cons_append, angleDepth_append, angleDepth_plain hangle]
  have htop : topWords (c :: t) = (c :: word) :: topWordsFrom (angleDepth 0 (c :: word)) rest := by
    rw [topWords, hwords, topWordsFrom, if_pos rfl]
  have htop' : topWords (b :: s ++ c :: t) =
      (b :: (s ++ c :: word)) :: topWordsFrom (angleDepth 0 (c :: word)) rest := by
    rw [topWords, hjoined, topWordsFrom, if_pos rfl, hdepth]
  rw [ofHeader_eq, ofHeader_eq, htop, htop', ofWords_skip (not_mem_keywords hc word) []]
  exact ofWords_skip (not_mem_keywords hb _) [] _

/-- One word that is no keyword is no header. -/
theorem ofHeader_of_word (hsolid : Text.Solid s) (hne : s ≠ []) (htype : s ∉ typeKeywords) :
    ofHeader s = .error (.ambiguousHeader (String.ofList s)) := by
  have htop : topWords s = [s] := by
    rw [topWords, Text.words_solid hsolid hne, topWordsFrom, if_pos rfl]
    rfl
  have hcount : typeKeywords.contains s = false := by simpa using htype
  rw [ofHeader_eq, htop, ofWords, kindOf, List.filter_cons_of_neg (Bool.eq_false_iff.mp hcount),
    if_pos (by simp)]
  rfl

end Front

end Signature

/-! ## The body -/

/-- The body is what stands behind the brace, after the literals that are open there. -/
theorem Header.body_eq (h : Header) :
    h.body = Body.ofGlyphs
      (Text.glyphsFrom (Quote.after none (h.before ++ (h.run ++ ['{']))) h.behind) := by
  have hlength (t : Text) (pending : Option Quote) :
      (Text.glyphsFrom pending t).length = t.length := by
    rw [← List.length_map (f := Glyph.char), ← Glyph.chars, Text.chars_glyphsFrom]
  have hsource : h.source = (h.before ++ (h.run ++ ['{'])) ++ h.behind := by simp [Header.source]
  rw [Header.body, Text.glyphs, hsource, Text.glyphsFrom_append, List.drop_left']
  rw [hlength]
  simp only [List.length_append, List.length_singleton]
  omega

/-- A front without quotes leaves the body as it is. -/
theorem Header.body_front {front run behind : Text} (hfront : Text.Unquoted front) :
    (⟨[], front ++ run, behind⟩ : Header).body = (⟨[], run, behind⟩ : Header).body := by
  rw [Header.body_eq, Header.body_eq, List.nil_append, List.append_assoc, Quote.after_append,
    Quote.after_unquoted hfront, List.nil_append]

end ClassDiagram.Declaration
