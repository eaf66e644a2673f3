import ClassDiagram.Member.Decode
import ClassDiagram.Proofs.Literal.Search
import ClassDiagram.Proofs.Member.Annotation
import ClassDiagram.Proofs.Member.Modifier
import ClassDiagram.Proofs.Source.Blank

/-!
# What stands in front of a value and of parameters

A field is cut at its first assignment outside literals, and a method at its first parenthesis.
When the text in front has neither quotes nor the mark that is looked for, the cut is behind all
of it, whatever follows (`splitValue_assignment`, `splitSignature?_paren`). The parameters reach
to the parenthesis that closes the first one if no brace comes before it
(`splitSignature?_group`).
-/

namespace ClassDiagram

/-! ## Assignments -/

namespace Glyph

/-- An assignment is found at the first equals sign, if no literal is open there. -/
theorem cutOutside?_assignment {t : Text} (ht : '=' ∉ t) (gs : List Glyph) :
    cutOutside? " = ".toList (Text.bare t ++ (Text.bare " = ".toList ++ gs)) =
      some (Text.bare t, gs) := by
  induction t with
  | nil => rfl
  | cons c t ih =>
      obtain ⟨hc, hrest⟩ := not_or.mp (mt List.mem_cons.mpr ht)
      have hnone : dropNeedle? " = ".toList
          (Text.bare (c :: t) ++ (Text.bare " = ".toList ++ gs)) = none := by
        rw [Option.eq_none_iff_forall_ne_some]
        intro rest hsome
        -- The equals sign would be the second character, and a space follows.
        have hsplit := chars_of_dropNeedle? hsome
        rw [chars_append, Text.chars_bare] at hsplit
        cases t with
        | nil => cases (List.cons.inj (List.cons.inj hsplit).2).1
        | cons d t =>
            have hequals : d = '=' := (List.cons.inj (List.cons.inj hsplit).2).1
            exact hrest (by simp [hequals])
      rw [Text.bare_cons, List.cons_append] at hnone ⊢
      rw [cutOutside?, hnone, ih hrest]
      rfl

end Glyph

namespace Member

/-! ## The first character -/

/-- The text begins with neither a blank nor an annotation. -/
def StartsMember (t : Text) : Prop := ∃ c, t.head? = some c ∧ Text.isBlank c = false ∧ c ≠ '@'

namespace StartsMember

variable {s t : Text}

theorem append (hs : StartsMember s) (t : Text) : StartsMember (s ++ t) := by
  obtain ⟨c, hc, hfirst⟩ := hs
  exact ⟨c, by rw [List.head?_append, hc, Option.some_or], hfirst⟩

theorem of_startsWord (ht : Text.StartsWord t) : StartsMember t := by
  obtain ⟨c, hc, hword⟩ := ht
  exact ⟨c, hc, Text.isBlank_of_isWordChar hword, Text.ne_of_isWordChar hword rfl⟩

theorem head?_any (ht : StartsMember t) : t.head?.any Text.isBlank = false := by
  obtain ⟨c, hc, hblank, -⟩ := ht
  rw [hc, Option.any_some, hblank]

theorem dropAnnotations_eq (ht : StartsMember t) : dropAnnotations t = t := by
  have htrim := Text.trimStart_of_head? ht.head?_any
  obtain ⟨c, hc, -, hmark⟩ := ht
  rw [dropAnnotations_of_head?, htrim]
  rw [htrim, hc]
  exact fun heq => hmark (Option.some.inj heq)

/-- What ends in a mark has no blanks at its ends. -/
theorem trim_concat (ht : StartsMember t) {c : Char} (hc : Text.isBlank c = false) :
    Text.trim (t ++ [c]) = t ++ [c] := by
  apply Text.trim_of_ends (ht.append [c]).head?_any
  rw [List.getLast?_concat, Option.any_some, hc]

end StartsMember

/-! ## Tokens -/

section Tokens

variable {marks first : Text} {ws ks : List Text} {access : Access}
  {isStatic isFinal isAbstract : Bool}

theorem StartsMember.intercalate (h : StartsMember first) (ws : List Text) :
    StartsMember ([' '].intercalate (first :: ws)) := by
  cases ws with
  | nil => rwa [List.intercalate_singleton]
  | cons w ws =>
      rw [List.intercalate_cons_cons, List.append_assoc]
      exact h.append _

theorem startsMember_tokens (hne : ws ≠ []) (hws : ∀ w ∈ ws, Text.IsTokenWithout marks w)
    (hmarks : '@' ∈ marks) : StartsMember ([' '].intercalate ws) := by
  obtain ⟨w, ws, rfl⟩ := List.exists_cons_of_ne_nil hne
  obtain ⟨⟨hfull, hsolid⟩, hunmarked⟩ := hws w List.mem_cons_self
  obtain ⟨c, w, rfl⟩ := List.exists_cons_of_ne_nil hfull
  have hfirst : StartsMember (c :: w) := by
    refine ⟨c, rfl, hsolid c List.mem_cons_self, ?_⟩
    exact (ne_of_mem_of_not_mem hmarks (hunmarked c List.mem_cons_self)).symm
  exact hfirst.intercalate ws

/-- The keywords of a member are tokens without any marks. -/
theorem tokens_keywords (hks : ks ⊆ Tree.modifierWords access isStatic isFinal isAbstract)
    (hmarks : ∀ c ∈ marks, Text.isWordChar c = false)
    (hws : ∀ w ∈ ws, Text.IsTokenWithout marks w) :
    ∀ w ∈ ks ++ ws, Text.IsTokenWithout marks w :=
  List.forall_mem_append.mpr
    ⟨fun _ hk => (Modifiers.isWord_of_mem (hks hk)).token_without hmarks, hws⟩

theorem startsMember_keywords
    (hks : ks.Perm (Tree.modifierWords access isStatic isFinal isAbstract)) (ws : List Text) :
    StartsMember ([' '].intercalate (ks ++ ws)) := by
  cases ks with
  | nil => exact absurd hks.nil_eq (List.cons_ne_nil _ _).symm
  | cons k ks =>
      have hword := Modifiers.isWord_of_mem (hks.subset List.mem_cons_self)
      exact (StartsMember.of_startsWord hword.startsWord).intercalate _

end Tokens

/-! ## Values -/

/-- The assignment of a value. -/
def assignment : Option Text → Text
  | some value => " = ".toList ++ value
  | none => []

/-- A field is cut at its assignment, whatever the value is. -/
theorem splitValue_assignment {lead : Text} (hstart : StartsMember lead)
    (hunquoted : Text.Unquoted lead) (hequals : '=' ∉ lead) (value : Option Text) :
    splitValue (lead ++ assignment value ++ [';']) = (lead, value.map Text.trim) := by
  have htext := (hstart.append (assignment value)).dropAnnotations_eq
  rw [splitValue, (hstart.append _).trim_concat rfl, dropSemicolon, List.getLast?_concat,
    if_pos (by decide), List.dropLast_concat, htext]
  cases value with
  | none =>
      rw [assignment, List.append_nil, Glyph.cutOutside?_of_not_mem (c := '=') (by decide)
        (by rwa [Text.chars_glyphs])]
      rfl
  | some value =>
      have hsign : Text.Unquoted " = ".toList := Text.forall_mem_of_all rfl
      rw [assignment, Text.glyphs_unquoted_append hunquoted, Text.glyphs_unquoted_append hsign,
        Glyph.cutOutside?_assignment hequals]
      simp

/-- The marks that the words of a field lack. -/
def fieldMarks : Text := "'\"=".toList

/-- A field is read from its words and its value. -/
theorem fields_of_decode {decoding : Decoding} {ws : List Text} {m : Modifiers} {type name : Text}
    (hstart : StartsMember ([' '].intercalate ws))
    (hws : ∀ w ∈ ws, Text.IsTokenWithout fieldMarks w)
    (hdecode : Modifiers.decode decoding ws = (m, [type, name])) (value : Option Text) :
    fields decoding ([' '].intercalate ws ++ assignment value ++ [';']) =
      (declaredNames (value.map Text.trim) name).map fun name => {
        type := String.ofList type
        name := String.ofList name
        value := (value.map Text.trim).map String.ofList
        access := m.access
        isStatic := m.isStatic
        isFinal := m.isFinal } := by
  have hunmarked := Text.unmarked_tokens hws (by decide)
  have hunquoted := Text.unquoted_of_unmarked hunmarked (by decide)
  have hequals : '=' ∉ [' '].intercalate ws := fun hmem => hunmarked _ hmem (by decide)
  rw [fields, splitValue_assignment hstart hunquoted hequals]
  dsimp only
  rw [Text.words_tokens hws, hdecode]
  rfl

/-! ## Signatures -/

section Signature

variable {lead inner : Text}

/-- A method is cut at its first parenthesis. -/
theorem splitSignature?_paren (hstart : StartsMember lead)
    (hlead : ∀ c ∈ lead, c ≠ '(' ∧ c ≠ '{') (rest : Text) :
    splitSignature? (lead ++ '(' :: rest) =
      some (lead, (splitGroup 0 ((Text.trimEnd rest).takeWhile (· != '{'))).1) := by
  have hbrace : ∀ c ∈ lead, (c != '{') = true := fun c hc => bne_iff_ne.mpr (hlead c hc).2
  have hparen : ∀ c ∈ lead, (c != '(') = true := fun c hc => bne_iff_ne.mpr (hlead c hc).1
  have htrim : Text.trim (lead ++ '(' :: rest) = lead ++ '(' :: Text.trimEnd rest := by
    have hlast : (lead ++ ['(']).getLast?.any Text.isBlank = false := by
      rw [List.getLast?_concat]
      rfl
    rw [Text.trim, Text.trimStart_of_head? (hstart.append _).head?_any,
      List.append_cons lead '(' rest, Text.trimEnd_append_of_getLast? hlast, ← List.append_cons]
  have hcut : (lead ++ '(' :: Text.trimEnd rest).takeWhile (· != '{') =
      lead ++ '(' :: (Text.trimEnd rest).takeWhile (· != '{') := by
    rw [List.takeWhile_append_of_pos hbrace]
    rfl
  rw [splitSignature?, htrim, (hstart.append _).dropAnnotations_eq, hcut,
    Text.dropWhile_stretch hparen rfl, Text.takeWhile_stretch hparen rfl]

/-- The parameters reach to the parenthesis that closes the first one, if there is no brace in
them. -/
theorem splitSignature?_group (hstart : StartsMember lead)
    (hlead : ∀ c ∈ lead, c ≠ '(' ∧ c ≠ '{') (hbrace : '{' ∉ inner)
    (hbalanced : Text.parens.Balanced inner) (tail : Text) :
    splitSignature? (lead ++ '(' :: (inner ++ ')' :: tail)) = some (lead, inner) := by
  have hinner : ∀ c ∈ inner, (c != '{') = true := by
    rintro c hc
    rw [bne_iff_ne]
    rintro rfl
    exact hbrace hc
  have htrim : Text.trimEnd (inner ++ ')' :: tail) = inner ++ ')' :: Text.trimEnd tail := by
    have hlast : (inner ++ [')']).getLast?.any Text.isBlank = false := by
      rw [List.getLast?_concat]
      rfl
    rw [List.append_cons inner ')' tail, Text.trimEnd_append_of_getLast? hlast, ← List.append_cons]
  have hcut : (inner ++ ')' :: Text.trimEnd tail).takeWhile (· != '{') =
      inner ++ ')' :: (Text.trimEnd tail).takeWhile (· != '{') := by
    rw [List.takeWhile_append_of_pos hinner]
    rfl
  rw [splitSignature?_paren hstart hlead, htrim, hcut, splitGroup_balanced hbalanced]

/-- The marks that the words in front of parameters lack. -/
def leadMarks : Text := "(\x7b".toList

theorem ne_of_mem_lead {ws : List Text} (hws : ∀ w ∈ ws, Text.IsTokenWithout leadMarks w) :
    ∀ c ∈ [' '].intercalate ws, c ≠ '(' ∧ c ≠ '\x7b' := by
  intro c hc
  have hmark := Text.unmarked_tokens hws (by decide) c hc
  exact ⟨(ne_of_mem_of_not_mem (by decide) hmark).symm,
    (ne_of_mem_of_not_mem (by decide) hmark).symm⟩

/-- A method is read from its words, of which some say what it is, and its parameters. -/
theorem method?_of_head {decoding : Decoding} {owner record list name : Text} {ws rest : List Text}
    {m : Modifiers} {type : Option Text} {access : Access}
    (hws : ∀ w ∈ ws, Text.IsTokenWithout leadMarks w)
    (hsplit : splitSignature? record = some ([' '].intercalate ws, list))
    (hdecode : Modifiers.decode decoding ws = (m, rest))
    (hhead : methodHead? owner ws m rest = some (type, name, access)) :
    method? decoding owner record = some {
      type := type.map String.ofList
      name := String.ofList name
      access
      isStatic := m.isStatic
      isFinal := m.isFinal
      isAbstract := m.isAbstract
      isConstructor := type.isNone
      parameters := parameters list } := by
  rw [method?, hsplit]
  simp only [Option.bind_eq_bind, Option.bind_some, Text.words_tokens hws, hdecode, hhead]
  rfl

end Signature

end Member

end ClassDiagram
