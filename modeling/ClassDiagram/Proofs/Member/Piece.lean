import ClassDiagram.Member.Parameter
import ClassDiagram.Proofs.Literal.Bare
import ClassDiagram.Proofs.Text.Brackets
import ClassDiagram.Proofs.Text.Line

/-!
# Parameter lists

A comma parts the pieces of a parameter list if no literal is open in front of it and no bracket.
That tells where any text is split, well-formed or not: there is one way to do it
(`IsSplit.unique`). A piece is a parameter if it has two words, which gaps part and nothing else
(`wordPair?_eq_some_iff`). So the parameters of a text are read off its pieces one by one
(`parameters_of_pieces`).
-/

namespace ClassDiagram.Member

/-! ## Pieces -/

/-- A comma behind the front of a list parts two pieces: it stands in no literal and in no
brackets. -/
structure PartsBehind (front : Text) : Prop where
  unquoted : Quote.after none front = none
  unnested : Glyph.anyBrackets.depth 0 front.glyphs = 0

/-- Behind the front of a list no comma of a text parts pieces. -/
def Unparted (front t : Text) : Prop := ∀ s u, t = s ++ ',' :: u → ¬PartsBehind (front ++ s)

/-- Behind the front of a list a text consists of pieces. Each of them reaches up to the first comma
that parts pieces, and the last one to the end of the text. -/
inductive SplitBehind : Text → Text → List Text → Prop where
  | last {front piece : Text} (h : Unparted front piece) : SplitBehind front piece [piece]
  | comma {front piece rest : Text} {pieces : List Text} (h : Unparted front piece)
      (hparts : PartsBehind (front ++ piece))
      (hrest : SplitBehind (front ++ (piece ++ [','])) rest pieces) :
      SplitBehind front (piece ++ ',' :: rest) (piece :: pieces)

/-- The pieces of a parameter list. -/
def IsSplit (t : Text) (pieces : List Text) : Prop := SplitBehind [] t pieces

section Split

variable {front s t u v : Text} {pieces : List Text} {c : Char}

theorem Unparted.cons (hc : c = ',' → ¬PartsBehind front) (h : Unparted (front ++ [c]) t) :
    Unparted front (c :: t) := by
  intro s u heq
  cases s with
  | nil =>
      rw [List.append_nil]
      exact hc (List.cons.inj heq).1
  | cons d s =>
      obtain ⟨rfl, ht⟩ := List.cons.inj heq
      have hs := h s u ht
      rwa [List.append_assoc, List.singleton_append] at hs

/-- A character that parts nothing belongs to the first piece. -/
theorem SplitBehind.cons (hc : c = ',' → ¬PartsBehind front)
    (h : SplitBehind (front ++ [c]) t pieces) :
    SplitBehind front (c :: t) (Text.consWord c pieces) := by
  cases h with
  | last h => exact .last (h.cons hc)
  | comma h hparts hrest =>
      rw [List.append_assoc, List.singleton_append] at hparts hrest
      exact .comma (h.cons hc) hparts hrest

/-- Of two texts that reach to a comma, the one that is not parted cannot be the longer one. -/
theorem Unparted.length_le (hu : Unparted front u) (hparts : PartsBehind (front ++ s))
    (h : s ++ ',' :: t = u ++ v) : u.length ≤ s.length := by
  rcases List.append_eq_append_iff.mp h with ⟨between, rfl, hrest⟩ | ⟨between, rfl, -⟩
  · cases between with
    | nil => simp
    | cons d between =>
        cases (List.cons.inj hrest).1
        exact absurd hparts (hu s between rfl)
  · simp

theorem SplitBehind.unique {other : List Text} (h : SplitBehind front t pieces)
    (h' : SplitBehind front t other) : pieces = other := by
  induction h generalizing other with
  | @last front piece hpiece =>
      cases h' with
      | last => rfl
      | comma hother hparts hrest => exact absurd hparts (hpiece _ _ rfl)
  | @comma front piece rest pieces hpiece hparts hrest ih =>
      generalize htext : piece ++ ',' :: rest = text at h'
      cases h' with
      | last hother => exact absurd hparts (hother _ _ htext.symm)
      | @comma _ first behind others hother hparts' hrest' =>
          have hlength : piece.length = first.length :=
            Nat.le_antisymm (hpiece.length_le hparts' htext.symm) (hother.length_le hparts htext)
          obtain ⟨rfl, hbehind⟩ := List.append_inj htext hlength
          cases hbehind
          rw [ih hrest']

end Split

/-! ## The search for commas -/

section Search

variable {front : Text} {c : Char}

theorem bracketStep_eq (depth : Nat) (g : Glyph) :
    bracketStep depth g = Glyph.anyBrackets.next depth g := by
  obtain ⟨c, quoted⟩ := g
  cases quoted with
  | true => rfl
  | false => simp [bracketStep, Brackets.next, Glyph.anyBrackets, or_assoc]

/-- The depth behind one more character of a list. -/
theorem depth_concat (front : Text) (c : Char) :
    Glyph.anyBrackets.depth 0 (front ++ [c]).glyphs =
      bracketStep (Glyph.anyBrackets.depth 0 front.glyphs)
        ⟨c, Quote.encloses (Quote.after none front) c⟩ := by
  rw [bracketStep_eq, Text.glyphs, Text.glyphsFrom_append, Brackets.depth_append]
  rfl

/-- The search ends a piece at the commas that part pieces. -/
theorem parts_iff (front : Text) (c : Char) :
    (!Quote.encloses (Quote.after none front) c && c == ',' &&
        Glyph.anyBrackets.depth 0 front.glyphs == 0) = true ↔ c = ',' ∧ PartsBehind front := by
  constructor
  · intro h
    simp only [Bool.and_eq_true, Bool.not_eq_true', beq_iff_eq] at h
    obtain ⟨⟨hquoted, rfl⟩, hdepth⟩ := h
    refine ⟨rfl, ?_, hdepth⟩
    cases hopen : Quote.after none front with
    | none => rfl
    | some quote =>
        rw [hopen] at hquoted
        cases quote <;> cases hquoted
  · rintro ⟨rfl, hunquoted, hunnested⟩
    rw [hunquoted, hunnested]
    rfl

theorem splitBehind_parameterPieces (front t : Text) :
    SplitBehind front t (parameterPieces (Glyph.anyBrackets.depth 0 front.glyphs)
      (Text.glyphsFrom (Quote.after none front) t)) := by
  induction t generalizing front with
  | nil => exact .last fun s u h => by simp at h
  | cons c t ih =>
      have hnext : Quote.next (Quote.after none front) c = Quote.after none (front ++ [c]) := by
        rw [Quote.after_append]
        rfl
      have hrest := ih (front ++ [c])
      rw [Text.glyphsFrom_cons, parameterPieces, hnext]
      split
      · rename_i hcut
        obtain ⟨rfl, hparts⟩ := (parts_iff front c).mp hcut
        have hstep (depth : Nat) (quoted : Bool) : bracketStep depth ⟨',', quoted⟩ = depth := by
          cases quoted <;> rfl
        rw [depth_concat, hstep] at hrest
        have hnone : Unparted front [] := fun s u h => by simp at h
        have hbehind : PartsBehind (front ++ []) := by rwa [List.append_nil]
        exact .comma hnone hbehind hrest
      · rename_i hcut
        rw [← depth_concat]
        exact hrest.cons fun hc hparts => hcut ((parts_iff front c).mpr ⟨hc, hparts⟩)

/-- A text is split into pieces in one way, and these are found. -/
theorem isSplit_iff (t : Text) (pieces : List Text) :
    IsSplit t pieces ↔ pieces = parameterPieces 0 t.glyphs := by
  have hsplit : IsSplit t (parameterPieces 0 t.glyphs) := splitBehind_parameterPieces [] t
  constructor
  · intro h
    exact h.unique hsplit
  · rintro rfl
    exact hsplit

end Search

/-! ## Words -/

/-- The maximal stretches of characters that are no gaps, in order. -/
def gapWords (t : Text) : List Text := (Text.splitWhere isGap t).filter fun word => !word.isEmpty

section Words

variable {t word first second : Text} {c : Char}

theorem gapWords_gap (hc : isGap c = true) (t : Text) : gapWords (c :: t) = gapWords t := by
  rw [gapWords, Text.splitWhere, if_pos hc]
  rfl

theorem gapWords_dropWhile (t : Text) : gapWords (t.dropWhile isGap) = gapWords t := by
  induction t with
  | nil => rfl
  | cons c t ih =>
      cases hc : isGap c with
      | true => rw [List.dropWhile_cons_of_pos hc, ih, gapWords_gap hc]
      | false => rw [List.dropWhile_cons_of_neg (by simp [hc])]

/-- A word in front of a gap or the end is the first one. -/
theorem gapWords_word (hne : word ≠ []) (hword : ∀ c ∈ word, isGap c = false)
    (ht : t.head?.all isGap = true) : gapWords (word ++ t) = word :: gapWords t := by
  have hkept : (!word.isEmpty) = true := by simpa using hne
  cases t with
  | nil =>
      rw [List.append_nil, gapWords, Text.splitWhere_of_forall hword, List.filter_cons,
        if_pos hkept]
      rfl
  | cons c t =>
      have hc : isGap c = true := by simpa using ht
      rw [gapWords, Text.splitWhere_append_cut hc, Text.splitWhere_of_forall hword,
        List.singleton_append, List.filter_cons, if_pos hkept, gapWords_gap hc, gapWords]

/-- Behind the gap at its front a text begins with a word, unless it is at its end. -/
theorem gapWords_takeWord (t : Text) :
    gapWords t = if (takeWord (t.dropWhile isGap)).1 = [] then []
      else (takeWord (t.dropWhile isGap)).1 :: gapWords (takeWord (t.dropWhile isGap)).2 := by
  have hhead := List.head?_dropWhile_not isGap t
  rw [← gapWords_dropWhile t]
  generalize t.dropWhile isGap = u at hhead ⊢
  cases u with
  | nil => rfl
  | cons c u =>
      have hc : isGap c = false := hhead
      have hne : (takeWord (c :: u)).1 ≠ [] := by
        rw [takeWord, List.takeWhile_cons_of_pos (by simp [hc])]
        exact List.cons_ne_nil _ _
      have hword : ∀ d ∈ (takeWord (c :: u)).1, isGap d = false := by
        intro d hd
        simpa using List.all_eq_true.mp List.all_takeWhile d hd
      have hgap : (takeWord (c :: u)).2.head?.all isGap = true := by
        have hbehind := List.head?_dropWhile_not (fun d => !isGap d) (c :: u)
        rw [takeWord]
        cases hrest : (c :: u).dropWhile fun d => !isGap d with
        | nil => rfl
        | cons d rest =>
            rw [hrest] at hbehind
            simpa using hbehind
      have hsplit : (takeWord (c :: u)).1 ++ (takeWord (c :: u)).2 = c :: u :=
        List.takeWhile_append_dropWhile
      rw [if_neg hne, ← gapWords_word hne hword hgap, hsplit]

theorem gapWords_eq_nil_iff : gapWords t = [] ↔ isGapText t = true := by
  induction t with
  | nil => exact ⟨fun _ => rfl, fun _ => rfl⟩
  | cons c t ih =>
      cases hc : isGap c with
      | true => rw [gapWords_gap hc, ih, isGapText, isGapText, List.all_cons, hc, Bool.true_and]
      | false =>
          have hne : (takeWord ((c :: t).dropWhile isGap)).1 ≠ [] := by
            rw [List.dropWhile_cons_of_neg (by simp [hc]), takeWord,
              List.takeWhile_cons_of_pos (by simp [hc])]
            exact List.cons_ne_nil _ _
          rw [gapWords_takeWord, if_neg hne, isGapText, List.all_cons, hc, Bool.false_and]
          simp

theorem wordPair?_eq_some_iff :
    wordPair? t = some (first, second) ↔ gapWords t = [first, second] := by
  rw [gapWords_takeWord t, wordPair?]
  generalize takeWord (t.dropWhile isGap) = front
  obtain ⟨word, behind⟩ := front
  rw [gapWords_takeWord behind]
  dsimp only
  generalize takeWord (behind.dropWhile isGap) = back
  obtain ⟨other, rest⟩ := back
  dsimp only
  have hrest := gapWords_eq_nil_iff (t := rest)
  cases word with
  | nil => simp
  | cons c word =>
      cases other with
      | nil => simp
      | cons d other => simp [← hrest, and_comm, and_assoc]

end Words

/-! ## Parameters -/

/-- The parameter that a piece stands for: a type and a name, if the piece is not blank and has
these two words. -/
def parameterOf? (piece : Text) : Option Parameter :=
  if Text.isBlankText piece then none
  else
    match gapWords piece with
    | [type, name] => some ⟨String.ofList type, String.ofList name⟩
    | _ => none

theorem parameter?_eq (piece : Text) : parameter? piece = parameterOf? piece := by
  rw [parameter?, parameterOf?]
  congr 1
  cases hpair : wordPair? piece with
  | some pair =>
      rw [wordPair?_eq_some_iff.mp hpair]
      rfl
  | none =>
      split
      · rename_i type name hwords
        rw [wordPair?_eq_some_iff.mpr hwords] at hpair
        cases hpair
      · rfl

/-- The parameters of a text are those of its pieces, in order. There is one way to split the text
into pieces, and a piece that is blank or does not have two words is left out. -/
theorem parameters_of_pieces (t : Text) :
    ∃ pieces, (∀ others, IsSplit t others ↔ others = pieces) ∧
      parameters t = pieces.filterMap parameterOf? := by
  refine ⟨parameterPieces 0 t.glyphs, isSplit_iff t, ?_⟩
  rw [parameters, funext parameter?_eq]

end ClassDiagram.Member
