import ClassDiagram.Proofs.Declaration.Front
import ClassDiagram.Proofs.Text.Brackets
import ClassDiagram.Proofs.Tree.Basic

/-!
# The words of a signature

A signature is read from the words of a header that begin outside angle brackets. The kind is
stated by keywords among them, and a clause by its keyword and the one word behind it, which
is a list of supertypes with commas outside angle brackets.
-/

namespace ClassDiagram.Declaration

/-! ## Blanks inside brackets -/

section Words

variable {t : Text} {depth : Nat}

theorem next_blank {c : Char} (hc : Text.isBlank c = true) (depth : Nat) :
    Text.angles.next depth c = depth := by
  refine Brackets.next_other (beq_eq_false_iff_ne.mpr ?_) (beq_eq_false_iff_ne.mpr ?_)
  · rintro rfl
    cases hc
  · rintro rfl
    cases hc

theorem topWordsFrom_inside {word : Text} (hdepth : 0 < depth) (words : List Text) :
    topWordsFrom depth (word :: words) = topWordsFrom (Text.angles.depth depth word) words := by
  rw [topWordsFrom, if_neg (Nat.ne_of_gt hdepth)]
  rfl

/-- A text whose blanks stand inside brackets is no word when it begins inside them. -/
theorem topWordsFrom_words_inside (hdepth : 0 < depth)
    (hblank : Text.angles.Shelters (Text.isBlank · = true) depth t) (words : List Text) :
    topWordsFrom depth (Text.words t ++ words) =
      topWordsFrom (Text.angles.depth depth t) words := by
  induction hlength : t.length using Nat.strongRecOn generalizing t depth with
  | _ length ih =>
      have hstretch {s : Text} (hs : ∀ c ∈ s, (!Text.isBlank c) = true) (rest : List Text) :
          topWordsFrom depth (Text.words s ++ rest) =
            topWordsFrom (Text.angles.depth depth s) rest := by
        cases s with
        | nil => rfl
        | cons c s =>
            have hsolid : Text.Solid (c :: s) := fun d hd => by simpa using hs d hd
            rw [Text.words_solid hsolid (List.cons_ne_nil c s), List.singleton_append,
              topWordsFrom_inside hdepth]
      rcases Text.stretch_or_split (fun c => !Text.isBlank c) t with
        hall | ⟨s, c, rest, rfl, hs, hc⟩
      · exact hstretch hall words
      · have hc : Text.isBlank c = true := by simpa using hc
        have hpos := Brackets.depth_pos_of_shelters hblank hc
        have hrest := (Brackets.shelters_append.mp hblank).2.2
        rw [next_blank hc] at hrest
        rw [Text.words_append_blank hc, List.append_assoc, hstretch hs,
          ih rest.length (by simp [← hlength]; omega) hpos hrest rfl, Brackets.depth_append,
          Brackets.depth_cons, next_blank hc]

/-- Outside brackets such a text is the one word up to its first blank. -/
theorem topWordsFrom_words (hhead : t.head?.all Text.isBlank = false)
    (hblank : Text.angles.Shelters (Text.isBlank · = true) 0 t) (words : List Text) :
    topWordsFrom 0 (Text.words t ++ words) =
      t.takeWhile (fun c => !Text.isBlank c) :: topWordsFrom (Text.angles.depth 0 t) words := by
  have hne : t ≠ [] := by
    rintro rfl
    cases hhead
  rcases Text.stretch_or_split (fun c => !Text.isBlank c) t with
    hall | ⟨s, c, rest, rfl, hs, hc⟩
  · have htake := Text.takeWhile_stretch (t := []) hall rfl
    rw [List.append_nil] at htake
    have hsolid : Text.Solid t := fun c hc => by simpa using hall c hc
    rw [Text.words_solid hsolid hne, htake]
    rfl
  · have hc : Text.isBlank c = true := by simpa using hc
    have hsolid : Text.Solid s := fun d hd => by simpa using hs d hd
    have hs' : s ≠ [] := by
      rintro rfl
      simp [hc] at hhead
    have hpos := Brackets.depth_pos_of_shelters hblank hc
    have hrest := (Brackets.shelters_append.mp hblank).2.2
    rw [next_blank hc] at hrest
    have hinside := topWordsFrom_words_inside hpos hrest words
    rw [Text.words_append_blank hc, Text.words_solid hsolid hs',
      Text.takeWhile_stretch hs (by simp [hc]), Brackets.depth_append, Brackets.depth_cons,
      next_blank hc, ← hinside]
    rfl

/-- Without angle brackets every word counts. -/
theorem topWords_of_plain (ht : ∀ c ∈ t, c ≠ '<' ∧ c ≠ '>') : topWords t = Text.words t := by
  have hwords : ∀ word ∈ Text.words t, ∀ c ∈ word, c ≠ '<' ∧ c ≠ '>' := by
    intro word hword c hc
    obtain ⟨front, rest, hsplit⟩ := List.append_of_mem hword
    obtain ⟨s, behind, rfl, -⟩ := Text.exists_of_words hsplit
    exact ht c (by simp [hc])
  rw [topWords]
  generalize Text.words t = words at hwords ⊢
  induction words with
  | nil => rfl
  | cons word words ih =>
      rw [topWordsFrom, if_pos rfl, Signature.angleDepth_plain (hwords word (by simp)),
        ih fun v hv => hwords v (List.mem_cons_of_mem word hv)]

end Words

/-! ## Generic arguments -/

/-- Generic arguments with their angle brackets, if there are any. -/
def angled : Option Text → Text
  | some t => '<' :: (t ++ ['>'])
  | none => []

theorem balanced_none : ∀ t ∈ (none : Option Text), Text.angles.Balanced t := by
  rintro _ ⟨⟩

theorem angled_cases (arguments : Option Text) :
    angled arguments = [] ∨ ∃ t, angled arguments = '<' :: t := by
  cases arguments with
  | none => exact .inl rfl
  | some t => exact .inr ⟨_, rfl⟩

/-- All brackets of a type are closed, and outside of them stands only its name. -/
theorem shelters_angled {name : Text} {arguments : Option Text} {p : Char → Prop}
    (hplain : ∀ c ∈ name, c ≠ '<' ∧ c ≠ '>')
    (hbalanced : ∀ t ∈ arguments, Text.angles.Balanced t) (hname : ∀ c ∈ name, ¬p c)
    (hopen : ¬p '<') :
    Text.angles.Shelters p 0 (name ++ angled arguments) ∧
      Text.angles.depth 0 (name ++ angled arguments) = 0 := by
  have hdepth : Text.angles.depth 0 name = 0 :=
    Brackets.depth_of_depth? (Brackets.depth?_of_forall fun c hc =>
      ⟨beq_eq_false_iff_ne.mpr (hplain c hc).1, beq_eq_false_iff_ne.mpr (hplain c hc).2⟩)
  have hangled : Text.angles.Shelters p 0 (angled arguments) ∧
      Text.angles.depth 0 (angled arguments) = 0 := by
    cases arguments with
    | none => exact ⟨trivial, rfl⟩
    | some t =>
        have hinside : Text.angles.depth 1 t = 1 :=
          Brackets.depth_of_depth? (Brackets.depth?_add (hbalanced t rfl) 1)
        refine ⟨⟨fun h => absurd h hopen, Brackets.shelters_append.mpr ⟨?_, fun _ => ?_, trivial⟩⟩,
          ?_⟩
        · exact Brackets.shelters_of_depth? (hbalanced t rfl)
        · exact hinside ▸ Nat.one_pos
        · rw [angled, Brackets.depth_cons, Brackets.depth_append]
          exact congrArg (Text.angles.next · '>') hinside
  constructor
  · rw [Brackets.shelters_append, hdepth]
    exact ⟨Brackets.shelters_of_forall hname, hangled.1⟩
  · rw [Brackets.depth_append, hdepth, hangled.2]

/-- The bare name of a type ends in front of its arguments. -/
theorem bareName_angled {name t : Text} (hplain : ∀ c ∈ name, c ≠ '<')
    (ht : t = [] ∨ ∃ rest, t = '<' :: rest) : bareName (name ++ t) = name := by
  refine Text.takeWhile_stretch (fun c hc => bne_iff_ne.mpr (hplain c hc)) ?_
  rcases ht with rfl | ⟨rest, rfl⟩ <;> rfl

/-! ## Lists -/

section List

variable {w : Text} {depth : Nat}

theorem listPieces_cons {c : Char} (hc : c = ',' → 0 < depth) (t : Text) :
    listPieces depth (c :: t) = Text.consWord c (listPieces (angleStep depth c) t) := by
  rw [listPieces, if_neg]
  intro h
  rw [Bool.and_eq_true, beq_iff_eq, beq_iff_eq] at h
  exact Nat.ne_of_gt (hc h.1) h.2

/-- The first piece of a list ends at the first comma outside angle brackets. -/
theorem listPieces_append_comma (hcomma : Text.angles.Shelters (· = ',') depth w)
    (hdepth : Text.angles.depth depth w = 0) (t : Text) :
    listPieces depth (w ++ ',' :: t) = w :: listPieces 0 t := by
  induction w generalizing depth with
  | nil =>
      cases hdepth
      rfl
  | cons c w ih =>
      obtain ⟨hc, hw⟩ := hcomma
      rw [List.cons_append, listPieces_cons hc]
      exact congrArg (Text.consWord c) (ih hw hdepth)

/-- Without such a comma a list is one piece. -/
theorem listPieces_of_shelters (hcomma : Text.angles.Shelters (· = ',') depth w) :
    listPieces depth w = [w] := by
  induction w generalizing depth with
  | nil => rfl
  | cons c w ih =>
      obtain ⟨hc, hw⟩ := hcomma
      rw [listPieces_cons hc]
      exact congrArg (Text.consWord c) (ih hw)

end List

namespace Signature

/-! ## Clauses and kinds -/

variable {keyword : String} {s t : List Text}

theorem wordAfter?_append (hs : ∀ w ∈ s, w ≠ keyword.toList) :
    wordAfter? keyword (s ++ t) = wordAfter? keyword t := by
  rw [wordAfter?, wordAfter?, List.dropWhile_append_of_pos fun w hw => by simpa using hs w hw]

theorem wordAfter?_of_forall_ne (hs : ∀ w ∈ s, w ≠ keyword.toList) :
    wordAfter? keyword s = none := by
  have h := wordAfter?_append (t := []) hs
  rw [List.append_nil] at h
  exact h

theorem wordAfter?_self (w : Text) : wordAfter? keyword (keyword.toList :: w :: t) = some w := by
  rw [wordAfter?, List.dropWhile_cons_of_neg (by simp)]
  rfl

/-- The words that decide the kind. -/
def kindKeywords : List Text := ["class", "interface", "enum", "abstract"].map String.toList

theorem mem_kindKeywords_of_mem_typeKeywords :
    ∀ keyword ∈ typeKeywords, keyword ∈ kindKeywords := by
  decide

/-- The keywords of a kind state it, if the words behind them say nothing else. -/
theorem kindOf_keywords {rest : List Text} (hrest : ∀ w ∈ rest, w ∉ kindKeywords) (kind : Kind)
    (header : Text) : kindOf header (kind.keywords ++ rest) = .ok kind := by
  have hother : ∀ keyword ∈ kindKeywords, rest.contains keyword = false := by
    intro keyword hkeyword
    rw [← Bool.not_eq_true, List.contains_iff_mem]
    exact fun hmem => hrest keyword hmem hkeyword
  have hfilter : rest.filter (fun w => typeKeywords.contains w) = [] := by
    rw [List.filter_eq_nil_iff]
    intro w hw hmem
    exact hrest w hw (mem_kindKeywords_of_mem_typeKeywords w (List.contains_iff_mem.mp hmem))
  have hcontains {keyword : Text} (hkeyword : keyword ∈ kindKeywords) :
      (kind.keywords ++ rest).contains keyword = kind.keywords.contains keyword := by
    rw [List.contains_append, hother keyword hkeyword, Bool.or_false]
  rw [kindOf, List.filter_append, hfilter, List.append_nil, hcontains (by decide),
    hcontains (by decide), hcontains (by decide)]
  cases kind with
  | plainClass => rfl
  | abstractClass => rfl
  | interface => rfl
  | enum => rfl

end Signature

end ClassDiagram.Declaration
