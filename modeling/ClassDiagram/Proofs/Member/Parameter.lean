import ClassDiagram.Member.Parameter
import ClassDiagram.Proofs.Literal.Bare
import ClassDiagram.Proofs.Source.Blank

/-!
# Parameters in print

A parameter is a type and a name with a space between them (`parameter?_pair`). In a list of
parameters the commas inside the brackets of a type part nothing, as long as these brackets are
properly nested, so the pieces of the list are its parameters (`parameterPieces_joined`).
-/

namespace ClassDiagram.Member

/-! ## One parameter -/

section Pair

variable {s t : Text}

theorem isGap_of_not_isBlank {c : Char} (hc : Text.isBlank c = false) : isGap c = false := by
  have hne (d : Char) (hd : Text.isBlank d = true) : (c == d) = false :=
    beq_eq_false_iff_ne.mpr (Text.ne_of_isBlank hd hc).symm
  rw [isGap, hne ' ' rfl, hne '\t' rfl, hne '\n' rfl, hne '\r' rfl]
  rfl

/-- A text without blanks is taken as a whole in front of a gap or the end. -/
theorem takeWord_solid (hs : Text.Solid s) (ht : t.head?.all isGap = true) :
    takeWord (s ++ t) = (s, t) := by
  have hchars : ∀ c ∈ s, (!isGap c) = true := by
    intro c hc
    rw [isGap_of_not_isBlank (hs c hc)]
    rfl
  have hhead : t.head?.any (fun c => !isGap c) = false := by
    cases t with
    | nil => rfl
    | cons c t => simpa using ht
  rw [takeWord, Text.takeWhile_stretch hchars hhead, Text.dropWhile_stretch hchars hhead]

theorem dropWhile_isGap_solid (hs : Text.Solid s) (hne : s ≠ []) (t : Text) :
    (s ++ t).dropWhile isGap = s ++ t := by
  cases s with
  | nil => exact absurd rfl hne
  | cons c s =>
      exact List.dropWhile_cons_of_neg (by simp [isGap_of_not_isBlank (hs c (by simp))])

/-- A type and a name are read back. -/
theorem parameter?_pair (hs : Text.Solid s) (hsne : s ≠ []) (ht : Text.Solid t) (htne : t ≠ []) :
    parameter? (s ++ ' ' :: t) = some ⟨String.ofList s, String.ofList t⟩ := by
  have hblank : Text.isBlankText (s ++ ' ' :: t) = false := by
    obtain ⟨c, u, rfl⟩ := List.exists_cons_of_ne_nil hsne
    simp [Text.isBlankText, hs c (by simp)]
  have hfirst : s.isEmpty = false := List.isEmpty_eq_false_iff.mpr hsne
  have hsecond : t.isEmpty = false := List.isEmpty_eq_false_iff.mpr htne
  have hlast := takeWord_solid (t := []) ht rfl
  have hgap := dropWhile_isGap_solid ht htne []
  rw [List.append_nil] at hlast hgap
  have hpair : wordPair? (s ++ ' ' :: t) = some (s, t) := by
    rw [wordPair?, dropWhile_isGap_solid hs hsne, takeWord_solid hs rfl]
    dsimp only
    rw [List.dropWhile_cons_of_pos rfl, hgap, hlast]
    dsimp only
    rw [hfirst, hsecond]
    rfl
  rw [parameter?, hblank, hpair]
  rfl

end Pair

/-! ## Pieces -/

/-- A character that opens and closes no bracket and parts no parameters. -/
def IsPart (c : Char) : Prop := c ∉ ",<([>)]".toList

instance (c : Char) : Decidable (IsPart c) := inferInstanceAs (Decidable (c ∉ ",<([>)]".toList))

/-- The brackets of types. -/
def typeBrackets : List (Char × Char) := [('<', '>'), ('[', ']')]

/-- A text whose angle brackets and square brackets are properly nested, and in which commas stand
only inside them. The flag says whether the text itself stands inside brackets. -/
inductive WellBracketed : Bool → Text → Prop where
  | nil {inside : Bool} : WellBracketed inside []
  | part {inside : Bool} {c : Char} {t : Text} (hc : IsPart c) (h : WellBracketed inside t) :
      WellBracketed inside (c :: t)
  | comma {t : Text} (h : WellBracketed true t) : WellBracketed true (',' :: t)
  | group {inside : Bool} {opening closing : Char} {s t : Text}
      (hmarks : (opening, closing) ∈ typeBrackets) (hs : WellBracketed true s)
      (ht : WellBracketed inside t) : WellBracketed inside (opening :: (s ++ closing :: t))

namespace WellBracketed

variable {inside : Bool} {s t : Text}

theorem of_forall (h : ∀ c ∈ t, IsPart c) : WellBracketed inside t := by
  induction t with
  | nil => exact .nil
  | cons c t ih =>
      obtain ⟨hc, ht⟩ := List.forall_mem_cons.mp h
      exact .part hc (ih ht)

theorem append (hs : WellBracketed inside s) (ht : WellBracketed inside t) :
    WellBracketed inside (s ++ t) := by
  induction hs with
  | nil => exact ht
  | part hc _ ih => exact .part hc (ih ht)
  | comma _ ih => exact .comma (ih ht)
  | group hmarks hs _ _ ih =>
      rw [List.cons_append, List.append_assoc]
      exact .group hmarks hs (ih ht)

end WellBracketed

section Pieces

variable {depth : Nat} {c : Char} {s t : Text} {parts : List Text}

theorem parameterPieces_part (hc : IsPart c) (depth : Nat) (gs : List Glyph) :
    parameterPieces depth (⟨c, false⟩ :: gs) = Text.consWord c (parameterPieces depth gs) := by
  have hne (d : Char) (hd : d ∈ ",<([>)]".toList) : (c == d) = false :=
    beq_eq_false_iff_ne.mpr fun heq => hc (heq ▸ hd)
  have hstep : bracketStep depth ⟨c, false⟩ = depth := by
    rw [bracketStep]
    dsimp only
    rw [hne '<' (by decide), hne '(' (by decide), hne '[' (by decide), hne '>' (by decide),
      hne ')' (by decide), hne ']' (by decide)]
    rfl
  rw [parameterPieces, hstep]
  dsimp only
  rw [hne ',' (by decide)]
  rfl

/-- Inside brackets pieces are not parted, and behind them they are again. -/
theorem parameterPieces_brackets {opening closing : Char}
    (hmarks : (opening, closing) ∈ typeBrackets) (depth : Nat) (gs : List Glyph) :
    parameterPieces depth (⟨opening, false⟩ :: gs) =
        Text.consWord opening (parameterPieces (depth + 1) gs) ∧
      parameterPieces (depth + 1) (⟨closing, false⟩ :: gs) =
        Text.consWord closing (parameterPieces depth gs) := by
  simp only [typeBrackets, List.mem_cons, Prod.mk.injEq, List.not_mem_nil, or_false] at hmarks
  rcases hmarks with ⟨rfl, rfl⟩ | ⟨rfl, rfl⟩
  · exact ⟨rfl, rfl⟩
  · exact ⟨rfl, rfl⟩

/-- A nested text belongs to one piece, together with what follows. -/
theorem parameterPieces_nested {inside : Bool} (h : WellBracketed inside t)
    (hdepth : inside = true → 0 < depth) (gs : List Glyph) :
    parameterPieces depth (Text.bare t ++ gs) =
      t.foldr Text.consWord (parameterPieces depth gs) := by
  induction h generalizing depth gs with
  | nil => rfl
  | part hc _ ih =>
      rw [Text.bare_cons, List.cons_append, parameterPieces_part hc, ih hdepth, List.foldr_cons]
  | comma _ ih =>
      obtain ⟨more, rfl⟩ := Nat.exists_eq_add_one.mpr (hdepth rfl)
      exact congrArg (Text.consWord ',') (ih hdepth gs)
  | group hmarks _ _ ihs iht =>
      rw [Text.bare_cons, Text.bare_append, Text.bare_cons, List.cons_append, List.append_assoc,
        List.cons_append, (parameterPieces_brackets hmarks _ _).1, ihs fun _ => Nat.succ_pos depth,
        (parameterPieces_brackets hmarks _ _).2, iht hdepth, List.foldr_cons, List.foldr_append,
        List.foldr_cons]

/-- In a list each nested text is one piece. -/
theorem parameterPieces_joined (hne : parts ≠ []) (h : ∀ t ∈ parts, WellBracketed false t) :
    parameterPieces 0 (Text.bare ([','].intercalate parts)) = parts := by
  have hword (t : Text) (pieces : List Text) :
      t.foldr Text.consWord ([] :: pieces) = t :: pieces := by
    induction t with
    | nil => rfl
    | cons c t ih => rw [List.foldr_cons, ih, Text.consWord_cons]
  have hone {t : Text} (ht : WellBracketed false t) (gs : List Glyph) :
      parameterPieces 0 (Text.bare t ++ gs) = t.foldr Text.consWord (parameterPieces 0 gs) :=
    parameterPieces_nested ht (fun hinside => absurd hinside (by decide)) gs
  induction parts with
  | nil => exact absurd rfl hne
  | cons t parts ih =>
      obtain ⟨ht, hparts⟩ := List.forall_mem_cons.mp h
      cases parts with
      | nil =>
          have hlast := hone ht []
          rw [List.append_nil, parameterPieces, hword] at hlast
          rwa [List.intercalate_singleton]
      | cons u parts =>
          have hrest := ih (List.cons_ne_nil _ _) hparts
          rw [List.intercalate_cons_cons, List.append_assoc, List.singleton_append,
            Text.bare_append, Text.bare_cons, hone ht, parameterPieces, if_pos (by decide), hword,
            hrest]

end Pieces

/-! ## Lists of parameters -/

/-- The quotes, the parentheses and the braces. -/
def parameterMarks : Text := "'\"()\x7b\x7d".toList

/-- A parameter in print: a type and a name without blanks and without the marks of a list. The
brackets of the type are properly nested and hold all of its commas, and the name has neither
brackets nor commas. -/
structure TypedName where
  type : Text
  name : Text
  type_token : Text.IsTokenWithout parameterMarks type
  name_token : Text.IsTokenWithout parameterMarks name
  nested : WellBracketed false type
  plain : ∀ c ∈ name, IsPart c

namespace TypedName

/-- The type and the name with a space between them. -/
def text (p : TypedName) : Text := p.type ++ ' ' :: p.name

/-- What is read from it. -/
def toParameter (p : TypedName) : Parameter := ⟨String.ofList p.type, String.ofList p.name⟩

/-- The parameters with commas between them. -/
def list (ps : List TypedName) : Text := [','].intercalate (ps.map text)

theorem wellBracketed_text (p : TypedName) : WellBracketed false p.text :=
  p.nested.append (.part (by decide) (.of_forall p.plain))

theorem parameter?_text (p : TypedName) : parameter? p.text = some p.toParameter :=
  parameter?_pair p.type_token.token.2 p.type_token.token.1 p.name_token.token.2
    p.name_token.token.1

theorem unmarked_list (ps : List TypedName) : ∀ c ∈ list ps, c ∉ parameterMarks := by
  refine Text.forall_mem_intercalate (List.forall_mem_singleton.mpr (by decide)) ?_
  refine List.forall_mem_map.mpr fun p _ => List.forall_mem_append.mpr ⟨p.type_token.unmarked, ?_⟩
  exact List.forall_mem_cons.mpr ⟨by decide, p.name_token.unmarked⟩

/-- The parameters of a list are read back. -/
theorem parameters_list (ps : List TypedName) : parameters (list ps) = ps.map toParameter := by
  have hunquoted := Text.unquoted_of_unmarked (unmarked_list ps) (by decide)
  rw [parameters, Text.glyphs_unquoted hunquoted]
  cases ps with
  | nil => rfl
  | cons p ps =>
      have hparts : ∀ t ∈ (p :: ps).map text, WellBracketed false t :=
        List.forall_mem_map.mpr fun p _ => p.wellBracketed_text
      rw [list, parameterPieces_joined (by simp) hparts, List.filterMap_map,
        ← List.filterMap_eq_map]
      exact congrArg (List.filterMap · (p :: ps)) (funext parameter?_text)

end TypedName

end ClassDiagram.Member
